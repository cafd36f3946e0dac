/-
  Subject:   What `BSD_calc_priority` does to the priorities and the ready queues
             (`BSD_calc_priority_this`, `BSD_calc_priority` in threads/thread.c).

  * The formula divides twice and truncates twice. The second time the value is clamped below at 0,
    so truncation and rounding down agree; the first time they agree if 4 divides `recent_cpu`, and
    otherwise the result is at most 1 off.
  * `Updated s l s'`: what the walk over `all_list` has done after the threads of `l`. A ready thread
    whose priority changes moves to the back of its new queue, so the movers stand behind the
    threads that stay, in the order of the walk.
  * The flag `yield` is decided while part of the threads still have their old priority. A thread
    that overtakes the running one is noticed at its own turn if the running thread's turn is over,
    and at the running thread's turn otherwise.
-/
import Mathlib.Data.Rat.Floor
import Mathlib.Data.List.Induction
import Pintos.Threads.BsdBounds

namespace Pintos

open Lib List

/-! ## 1. The formula -/

/-- **The priority as it is meant**, over the rational numbers. -/
def exactPriority (recentCpu nice : Int) : Int :=
  max 0 (min 63 ⌊(63 : ℚ) - 2 * nice - recentCpu / (4 * 2 ^ 14)⌋)

theorem exactPriority_eq (recentCpu nice : Int) : exactPriority recentCpu nice =
      max 0 (min 63 (((63 - 2 * nice) * 65536 - recentCpu) / 65536)) := by
  have hq : (63 : ℚ) - 2 * nice - recentCpu / (4 * 2 ^ 14) =
      (((63 - 2 * nice) * 65536 - recentCpu : Int) : ℚ) / ((65536 : ℕ) : ℚ) := by
    push_cast
    ring
  unfold exactPriority
  rw [hq, Rat.floor_intCast_div_natCast]
  rfl

section Formula

variable {recentCpu nice : Int} (hr : -2 ^ 31 ≤ recentCpu ∧ recentCpu < 2 ^ 31)
  (hn : -20 ≤ nice ∧ nice ≤ 20)

include hr hn in
/-- The priority with the wrap-around taken out: two truncating divisions and a clamp. -/
theorem bsdCalcPriorityThis_eq : bsdCalcPriorityThis recentCpu nice =
    max 0 (min 63 (((63 - 2 * nice) * 16384 - recentCpu.tdiv 4).tdiv 16384)) := by
  have hbetween := tdiv_between (x := recentCpu) (m := 2 ^ 29) (n := 2 ^ 29) (d := 4) (by omega)
    (by omega) (by omega) (by omega) (by omega)
  have hd : fpDevide recentCpu 4 .int = recentCpu.tdiv 4 := int32_eq (by omega)
  have hfp : fpConvertToFp (int32 (priMax - int32 (nice * 2))) = (63 - 2 * nice) * 16384 := by
    rw [int32_eq (x := nice * 2) (by omega), fpConvertToFp, priMax, fpFormat,
      int32_eq (x := 63 - nice * 2) (by omega), int32_eq (by omega), Int.mul_comm nice 2]
  have hsub : fpSub ((63 - 2 * nice) * 16384) (recentCpu.tdiv 4) .fp =
      (63 - 2 * nice) * 16384 - recentCpu.tdiv 4 := int32_eq (by omega)
  unfold bsdCalcPriorityThis
  dsimp only
  rw [hd, hfp, hsub, fpConvertToIntDown, fpFormat, priMax, priMin]
  generalize ((63 - 2 * nice) * 16384 - recentCpu.tdiv 4).tdiv 16384 = p
  split <;> split <;> omega

/-- Clamped below at 0, a quotient that truncates is one that rounds down. -/
theorem clamp_tdiv (x : Int) : max 0 (min 63 (x.tdiv 16384)) = max 0 (min 63 (x / 16384)) := by
  rcases Int.le_total 0 x with hx | hx
  · rw [Int.tdiv_eq_ediv_of_nonneg hx]
  · rw [tdiv_of_nonpos hx]
    omega

theorem tdiv_four (x : Int) : x.tdiv 4 = if 0 ≤ x then x / 4 else -(-x / 4) := by
  split
  · rw [Int.tdiv_eq_ediv_of_nonneg (by assumption)]
  · rw [tdiv_of_nonpos (by omega)]

include hr hn in
/-- **The formula is exact if 4 divides `recent_cpu`, and at most 1 off otherwise.** -/
theorem bsdCalcPriorityThis_exact :
    (4 ∣ recentCpu → bsdCalcPriorityThis recentCpu nice = exactPriority recentCpu nice) ∧
      |bsdCalcPriorityThis recentCpu nice - exactPriority recentCpu nice| ≤ 1 := by
  rw [bsdCalcPriorityThis_eq hr hn, exactPriority_eq, clamp_tdiv, tdiv_four, abs_le]
  generalize 63 - 2 * nice = a
  split <;> omega

end Formula

/-- A higher `recent_cpu` and a higher `nice` do not give a higher priority. -/
theorem bsdCalcPriorityThis_antitone {r r' n n' : Int} (hr : -2 ^ 31 ≤ r ∧ r < 2 ^ 31)
    (hr' : -2 ^ 31 ≤ r' ∧ r' < 2 ^ 31) (hn : -20 ≤ n ∧ n ≤ 20) (hn' : -20 ≤ n' ∧ n' ≤ 20)
    (h : r ≤ r') (h' : n ≤ n') : bsdCalcPriorityThis r' n' ≤ bsdCalcPriorityThis r n := by
  rw [bsdCalcPriorityThis_eq hr hn, bsdCalcPriorityThis_eq hr' hn', clamp_tdiv, clamp_tdiv,
    tdiv_four, tdiv_four]
  split <;> split <;> omega

/-! ## 2. The walk -/

/-- The priority the formula gives a thread. -/
def newPriority (s : Sched) (t : Tid) : Int :=
  bsdCalcPriorityThis (s.thr t).recentCpu (s.thr t).nice

/-- The ready threads that change their queue. -/
def Moves (s : Sched) (t : Tid) : Prop :=
  s.name t ≠ "idle" ∧ s.status t = .ready ∧ s.priority t ≠ newPriority s t

instance (s : Sched) (t : Tid) : Decidable (Moves s t) := inferInstanceAs (Decidable (_ ∧ _ ∧ _))

/-- **After the threads of `l`**: their priorities are new, and those that move stand at the back of
    their new queues in the order of `l`. -/
structure Updated (s : Sched) (l : List Tid) (s' : Sched) : Prop where
  thr : ∀ t, s'.thr t =
    if t ∈ l ∧ s.name t ≠ "idle" then { s.thr t with priority := newPriority s t } else s.thr t
  queue : ∀ p, s'.readyList p =
    (s.readyList p).filter (fun t => !decide (t ∈ l ∧ Moves s t)) ++
      l.filter fun t => decide (Moves s t ∧ newPriority s t = p)

namespace Updated

variable {s s' : Sched} {l : List Tid} {t : Tid}

section

variable (h : Updated s l s')

include h

theorem untouched (ht : t ∉ l) : s'.thr t = s.thr t := by
  rw [h.thr, if_neg fun c => ht c.1]

theorem status (t : Tid) : s'.status t = s.status t := by
  unfold Sched.status
  rw [h.thr]
  split <;> rfl

theorem thr_append (ht : t ∉ l) (hidle : s.name t ≠ "idle") (u : Tid) :
    (s'.setPriority t (newPriority s t)).thr u =
      if u ∈ l ++ [t] ∧ s.name u ≠ "idle" then { s.thr u with priority := newPriority s u }
      else s.thr u := by
  rw [Sched.setPriority, Sched.thr_modify]
  by_cases hut : u = t
  · subst hut
    rw [if_pos rfl, if_pos ⟨by simp, hidle⟩, h.untouched ht]
  · rw [if_neg hut, h.thr]
    simp [hut]

theorem queue_stay (hmove : ¬Moves s t) (p : Int) : s'.readyList p =
    (s.readyList p).filter (fun u => !decide (u ∈ l ++ [t] ∧ Moves s u)) ++
      (l ++ [t]).filter fun u => decide (Moves s u ∧ newPriority s u = p) := by
  have hfst : ∀ u ∈ s.readyList p, (!decide (u ∈ l ++ [t] ∧ Moves s u)) =
      !decide (u ∈ l ∧ Moves s u) := by
    intro u _
    by_cases hut : u = t
    · subst hut
      simp [hmove]
    · simp [hut]
  rw [h.queue, filter_congr hfst, filter_append]
  simp [hmove]

/-- A thread that moves leaves its queue and joins the back of the new one. -/
theorem queue_move (hfiled : Filed s.readyList s.priority) (ht : t ∉ l)
    (hmove : Moves s t) (p : Int) : push (remove s'.readyList t) (newPriority s t) t p =
      (s.readyList p).filter (fun u => !decide (u ∈ l ++ [t] ∧ Moves s u)) ++
        (l ++ [t]).filter fun u => decide (Moves s u ∧ newPriority s u = p) := by
  have hleave : remove s'.readyList t p =
      (s.readyList p).filter (fun u => !decide (u ∈ l ++ [t] ∧ Moves s u)) ++
        l.filter fun u => decide (Moves s u ∧ newPriority s u = p) := by
    have hnot : t ∉ l.filter fun u => decide (Moves s u ∧ newPriority s u = p) :=
      fun c => ht (mem_filter.mp c).1
    have hstay := (hfiled.nodup p).filter fun u => !decide (u ∈ l ∧ Moves s u)
    have herase : ((s.readyList p).filter fun u => !decide (u ∈ l ∧ Moves s u)).erase t =
        (s.readyList p).filter fun u => !decide (u ∈ l ++ [t] ∧ Moves s u) := by
      rw [hstay.erase_eq_filter, filter_filter]
      refine filter_congr fun u _ => ?_
      by_cases hut : u = t
      · subst hut
        simp [hmove]
      · simp [hut]
    unfold remove
    rw [h.queue, erase_append, erase_of_not_mem hnot, herase]
    split
    · rfl
    · rename_i hmem
      rw [← herase, erase_of_not_mem hmem]
  rw [filter_append, ← append_assoc, ← hleave]
  by_cases hp : p = newPriority s t
  · subst hp
    rw [push_self]
    simp [hmove]
  · rw [push_ne _ _ hp]
    have hp' : newPriority s t ≠ p := fun e => hp e.symm
    simp [hp']

theorem step (hfiled : Filed s.readyList s.priority) (ht : t ∉ l) (y : Bool) :
    Updated s (l ++ [t]) (bsdCalcPriorityStep (s', y) t).1 := by
  have hsame := h.untouched ht
  have hname : s'.name t = s.name t := congrArg Thread.name hsame
  have hprio : s'.priority t = s.priority t := congrArg Thread.priority hsame
  have hnew : bsdCalcPriorityThis (s'.thr t).recentCpu (s'.thr t).nice = newPriority s t := by
    rw [hsame]
    rfl
  unfold bsdCalcPriorityStep
  dsimp only
  rw [hname, h.status, hprio, hnew]
  by_cases hidle : s.name t = "idle"
  · rw [if_pos hidle]
    refine ⟨fun u => ?_, h.queue_stay fun c => c.1 hidle⟩
    rw [h.thr]
    by_cases hut : u = t
    · subst hut
      simp [hidle]
    · simp [hut]
  · rw [if_neg hidle]
    by_cases hmove : s.status t = .ready ∧ s.priority t ≠ newPriority s t
    · rw [if_pos hmove]
      exact ⟨h.thr_append ht hidle, h.queue_move hfiled ht ⟨hidle, hmove⟩⟩
    · rw [if_neg hmove]
      exact ⟨h.thr_append ht hidle, h.queue_stay fun c => hmove c.2⟩

end

theorem walk (hfiled : Filed s.readyList s.priority) (hl : l.Nodup) :
    Updated s l (l.foldl bsdCalcPriorityStep (s, false)).1 := by
  induction l using List.reverseRecOn with
  | nil => exact ⟨fun u => by simp, fun p => by simp⟩
  | append_singleton l t ih =>
    obtain ⟨hl', -, hne⟩ := nodup_append.mp hl
    have ht : t ∉ l := fun c => hne t c t (mem_singleton_self t) rfl
    rw [foldl_append]
    exact (ih hl').step hfiled ht _

end Updated

/-! ## 3. The request for a yield -/

variable {s s' : Sched}

/-- **The turn of the running thread**: if the flag is down after it, nobody is above. -/
theorem runningTurn_noHigher (h : RunInv s) (hname : s.name s.running ≠ "idle") {y : Bool}
    (hy : (bsdCalcPriorityStep (s, y) s.running).2 = false) :
    NoHigher (bsdCalcPriorityStep (s, y) s.running).1 := by
  have hinv := (bsdCalcPriorityStep_turn h y s.running).inv
  have hrun : s.status s.running = .running := (h.running _).mpr rfl
  have hstep : bsdCalcPriorityStep (s, y) s.running =
      (s.setPriority s.running (newPriority s s.running), y || decide (newPriority s s.running <
        threadTopPriority (s.setPriority s.running (newPriority s s.running)))) := by
    unfold bsdCalcPriorityStep newPriority
    simp [hname, hrun]
  rw [hstep] at hy hinv ⊢
  rw [Bool.or_eq_false_iff, decide_eq_false_iff_not] at hy
  intro u hu
  have htop := le_threadTopPriority hinv.toReadyInv hu
  have hown : (s.setPriority s.running (newPriority s s.running)).priority s.running =
      newPriority s s.running := by
    rw [Sched.priority_setPriority, if_pos rfl]
  calc (s.setPriority s.running (newPriority s s.running)).priority u
      ≤ threadTopPriority (s.setPriority s.running (newPriority s s.running)) := htop
    _ ≤ newPriority s s.running := not_lt.mp hy.2
    _ = _ := hown.symm

/-- **The flag is raised if anybody ends above the running thread.** The walk is cut at the turn of
    the running thread: before it no turn decides anything, after it every turn is quiet unless it
    raises the flag. -/
theorem walk_noHigher (h : RunInv s) (hnd : s.allList.Nodup) (hname : s.name s.running ≠ "idle")
    (hy : (s.allList.foldl bsdCalcPriorityStep (s, false)).2 = false) :
    NoHigher (s.allList.foldl bsdCalcPriorityStep (s, false)).1 := by
  obtain ⟨l₁, l₂, hl⟩ := append_of_mem (h.all_mem _ h.running_live)
  rw [hl] at hnd hy ⊢
  obtain ⟨hnd1, -, hne⟩ := nodup_append.mp hnd
  have hnot : s.running ∉ l₁ := fun c => hne _ c _ mem_cons_self rfl
  rw [foldl_append, foldl_cons] at hy ⊢
  have hturn := bsdCalcPriority_walk h false l₁
  have hupd := Updated.walk h.filed hnd1
  generalize l₁.foldl bsdCalcPriorityStep (s, false) = sy at hturn hupd hy ⊢
  obtain ⟨s₁, y₁⟩ := sy
  have hname1 : s₁.name s₁.running ≠ "idle" := by
    rw [hturn.running]
    unfold Sched.name
    rw [hupd.untouched hnot]
    exact hname
  have hrun : s.running = s₁.running := hturn.running.symm
  rw [hrun] at hy ⊢
  have hmid := bsdCalcPriorityStep_turn hturn.inv y₁ s₁.running
  have hlast := bsdCalcPriority_walk hmid.inv (bsdCalcPriorityStep (s₁, y₁) s₁.running).2 l₂
  obtain ⟨hy2, hquiet⟩ := hlast.quiet hy
  exact (runningTurn_noHigher hturn.inv hname1 hy2).quiet hquiet

/-! ## 4. The update -/

/-- **The queue invariant**: the ready queues agree with the thread records, the CPU is on the
    running thread, and `all_list` holds each thread once. -/
structure QueueInv (s : Sched) : Prop extends RunInv s where
  all_nodup : s.allList.Nodup

/-- **What `BSD_calc_priority` is to do**: every thread not named "idle" has the priority of the
    formula and is otherwise as it was; the ready threads whose priority changed stand at the back
    of their new queues in the order of `all_list`, behind the others in their old order; the queue
    invariant holds; and in an interrupt a yield is requested if a ready thread is above a running
    thread not named "idle". -/
structure PriorityUpdate (s s' : Sched) : Prop where
  thr : ∀ t ∈ s.allList, s'.thr t =
    if s.name t ≠ "idle" then { s.thr t with priority := newPriority s t } else s.thr t
  queue : ∀ p, s'.readyList p = (s.readyList p).filter (fun t => !decide (Moves s t)) ++
    s.allList.filter fun t => decide (Moves s t ∧ newPriority s t = p)
  inv : QueueInv s'
  same : s'.running = s.running ∧ s'.allList = s.allList ∧
    ∀ t, Queued s'.readyList t ↔ Queued s.readyList t
  yields : s.inExternalIntr = true → s.name s.running ≠ "idle" →
    (∃ t, Queued s'.readyList t ∧ s'.priority s'.running < s'.priority t) →
    s'.yieldOnReturn = true

theorem bsdCalcPriorityStep_allList (sy : Sched × Bool) (t : Tid) :
    (bsdCalcPriorityStep sy t).1.allList = sy.1.allList := by
  unfold bsdCalcPriorityStep
  dsimp only
  split
  · rfl
  · split <;> rfl

/-- A queued thread moves to the queue of its new priority or stays. -/
theorem Updated.queued_iff (h : RunInv s) (hu : Updated s s.allList s') (t : Tid) :
    Queued s'.readyList t ↔ Queued s.readyList t := by
  have hmem : ∀ {p}, t ∈ s'.readyList p ↔ (t ∈ s.readyList p ∧ ¬(t ∈ s.allList ∧ Moves s t)) ∨
      (t ∈ s.allList ∧ Moves s t ∧ newPriority s t = p) := by
    intro p
    rw [hu.queue, mem_append, mem_filter, mem_filter, Bool.not_eq_true',
      decide_eq_false_iff_not, decide_eq_true_eq]
  constructor
  · rintro ⟨p, hp⟩
    rcases hmem.mp hp with ⟨hq, -⟩ | ⟨-, hmove, -⟩
    · exact ⟨p, hq⟩
    · exact h.ready_queued t hmove.2.1 fun hi => hmove.1 (h.idle_name hi)
  · rintro ⟨p, hp⟩
    have hlive : s.status t ≠ .dying := by
      rw [h.queued_ready t ⟨p, hp⟩]
      decide
    by_cases hmove : Moves s t
    · exact ⟨_, hmem.mpr (.inr ⟨h.all_mem t hlive, hmove, rfl⟩)⟩
    · exact ⟨p, hmem.mpr (.inl ⟨hp, fun c => hmove c.2⟩)⟩

theorem bsdCalcPriority_eq (s : Sched) : bsdCalcPriority s =
    let sy := s.allList.foldl bsdCalcPriorityStep (s, false)
    { sy.1 with yieldOnReturn := sy.2 && sy.1.inExternalIntr || sy.1.yieldOnReturn } := by
  unfold bsdCalcPriority
  generalize s.allList.foldl bsdCalcPriorityStep (s, false) = sy
  obtain ⟨s₁, y⟩ := sy
  dsimp only
  cases y && s₁.inExternalIntr <;> rfl

theorem QueueInv.priorityUpdate (h : QueueInv s) : PriorityUpdate s (bsdCalcPriority s) := by
  have hticked := bsdCalcPriority_ticked h.toRunInv
  have hupd := Updated.walk h.filed h.all_nodup
  have hno := walk_noHigher h.toRunInv h.all_nodup
  have hall : (s.allList.foldl bsdCalcPriorityStep (s, false)).1.allList = s.allList :=
    List.foldlRecOn (motive := fun sy => sy.1.allList = s.allList) s.allList bsdCalcPriorityStep
      rfl fun sy hsy t _ => (bsdCalcPriorityStep_allList sy t).trans hsy
  have hext : (s.allList.foldl bsdCalcPriorityStep (s, false)).1.inExternalIntr =
      s.inExternalIntr := (bsdCalcPriority_walk h.toRunInv false s.allList).ext
  rw [bsdCalcPriority_eq] at hticked ⊢
  generalize s.allList.foldl bsdCalcPriorityStep (s, false) = sy at hticked hupd hno hall hext ⊢
  obtain ⟨s₁, y⟩ := sy
  have hqueued : ∀ t, Queued s₁.readyList t ↔ Queued s.readyList t :=
    Updated.queued_iff h.toRunInv hupd
  refine ⟨fun t ht => ?_, fun p => ?_, ⟨hticked.inv, hall ▸ h.all_nodup⟩,
    ⟨hticked.running, hall, fun t => ?_⟩, fun hx hname hex => ?_⟩
  · have hthr := hupd.thr t
    simp only [ht, true_and] at hthr
    exact hthr
  · refine (hupd.queue p).trans (congrArg (· ++ _) (filter_congr fun t ht => ?_))
    have hlive : s.status t ≠ .dying := by
      rw [h.queued_ready t ⟨p, ht⟩]
      decide
    simp [h.all_mem t hlive]
  · exact hqueued t
  · change s₁.inExternalIntr = s.inExternalIntr at hext
    cases y with
    | true => simp [hext, hx]
    | false =>
      obtain ⟨t, hq, hlt⟩ := hex
      exact absurd (hno hname rfl t hq) (not_le.mpr hlt)

/-- **The priority update of the mlfqs scheduler.** -/
theorem mlfqs_priority_update : (∀ r nice : Int, -2 ^ 31 ≤ r ∧ r < 2 ^ 31 → -20 ≤ nice ∧ nice ≤ 20 →
      bsdCalcPriorityThisT r nice = some (bsdCalcPriorityThis r nice) ∧
      (0 ≤ bsdCalcPriorityThis r nice ∧ bsdCalcPriorityThis r nice ≤ 63) ∧
      (4 ∣ r → bsdCalcPriorityThis r nice = exactPriority r nice) ∧
      |bsdCalcPriorityThis r nice - exactPriority r nice| ≤ 1) ∧
    (∀ r r' nice nice' : Int, -2 ^ 31 ≤ r ∧ r < 2 ^ 31 → -2 ^ 31 ≤ r' ∧ r' < 2 ^ 31 →
      -20 ≤ nice ∧ nice ≤ 20 → -20 ≤ nice' ∧ nice' ≤ 20 → r ≤ r' → nice ≤ nice' →
      bsdCalcPriorityThis r' nice' ≤ bsdCalcPriorityThis r nice) ∧
    (∀ s : Sched, QueueInv s → PriorityUpdate s (bsdCalcPriority s)) := by
  refine ⟨fun r nice hr hn => ?_, fun r r' nice nice' hr hr' hn hn' h h' => ?_,
    fun s h => h.priorityUpdate⟩
  · obtain ⟨hexact, hnear⟩ := bsdCalcPriorityThis_exact hr hn
    exact ⟨priority_spec hr hn, bsdCalcPriorityThis_range r nice, hexact, hnear⟩
  · exact bsdCalcPriorityThis_antitone hr hr' hn hn' h h'

/-- A thread with nice value 1 that has run for three ticks; and a new thread, which goes from
    queue 31, where `thread_create` puts it, to queue 63. -/
theorem mlfqs_priority_update_new :
    |bsdCalcPriorityThis (3 * 16384) 1 - exactPriority (3 * 16384) 1| ≤ 1 ∧
      bsdCalcPriorityThis (3 * 16384) 1 = 60 ∧
      ∃ s, threadCreate (threadInit true false) "a" 31 true = some s ∧ s.readyList 31 = [1] ∧
        (bsdCalcPriority s).readyList 63 = [1] ∧ PriorityUpdate s (bsdCalcPriority s) := by
  refine ⟨(mlfqs_priority_update.1 (3 * 16384) 1 (by decide) (by decide)).2.2.2, by decide, ?_⟩
  have hrun : (threadCreate (threadInit true false) "a" 31 true).map (fun s => (s.allList,
      s.readyList 31, (bsdCalcPriority s).readyList 63)) = some ([0, 1], [1], [1]) := by
    decide
  obtain ⟨s, hs, hobs⟩ := Option.map_eq_some_iff.mp hrun
  simp only [Prod.mk.injEq] at hobs
  obtain ⟨hall, hbefore, hafter⟩ := hobs
  have hinv : QueueInv s := ⟨threadCreate_inv (threadInit_inv true false) hs, by rw [hall]; decide⟩
  exact ⟨s, hs, hbefore, hafter, mlfqs_priority_update.2.2 s hinv⟩

end Pintos
