/-
  Subject:   One semaphore under any number of threads and any interleaving of `sema_down`,
             `sema_try_down` and `sema_up`.

  A section with interrupts off is one step; threads are switched between sections and inside
  `thread_block`. So `sema_down` is a first test of the value and, each time the thread has been woken,
  another one; between two of them anyone may go ahead and take the unit the thread was woken for.
  Priorities change at any time (the scheduler recomputes them, also of waiting threads), and a thread
  outside the semaphore may block, wake or die elsewhere.

  `ups`, `downs` and `woken` are not in the source: they count the calls of `sema_up` and the downs
  that came through, and keep the threads that a `sema_up` has removed from `waiters` and that have not
  tested the value since.

  **`semaphore_correct`**: the value counts, waiters are distinct and blocked, and no wake-up is lost.
-/
import Pintos.Threads.Synch

namespace Pintos

open Lib Function List

/-! ## 1. The functions of synch.c -/

/-- A semaphore and the threads around it. -/
structure SemaSys where
  sema : Semaphore
  priority : Tid → Int
  status : Tid → ThreadStatus
  /-- Removed from `waiters` by a `sema_up`, and the value not tested since. -/
  woken : List Tid
  ups : ℕ
  downs : ℕ

namespace SemaSys

/-- `sema_init`, among threads of any status and priority. -/
def semaInit (value : UInt32) (status : Tid → ThreadStatus) (priority : Tid → Int) : SemaSys :=
  ⟨⟨value.toNat, []⟩, priority, status, [], 0, 0⟩

/-- `list_push_back (&sema->waiters, …); thread_block ();` -/
def block (s : SemaSys) (t : Tid) : SemaSys :=
  { s with
    sema := ⟨s.sema.value, s.sema.waiters ++ [t]⟩
    status := update s.status t .blocked }

/-- `sema->value--`. -/
def take (s : SemaSys) : SemaSys :=
  { s with sema := ⟨s.sema.value - 1, s.sema.waiters⟩ }

/-- `sema->value++`. -/
def give (s : SemaSys) : SemaSys := { s with sema := s.sema.give }

/-- The test of the loop of `sema_down` and what follows it. The answer says whether the down came
    through. -/
def semaTest (s : SemaSys) (t : Tid) : Bool × SemaSys :=
  if s.sema.value = 0 then (false, s.block t) else (true, s.take)

/-- `sema_try_down`. -/
def semaTryDown (s : SemaSys) : Bool × SemaSys :=
  if 0 < s.sema.value then (true, s.take) else (false, s)

/-- `list_remove (max_elem); thread_unblock (…);` with interrupts off, so without a yield. -/
def wake (s : SemaSys) (t : Tid) : Option SemaSys :=
  if s.status t = .blocked then
    some { s with
      sema := ⟨s.sema.value, s.sema.waiters.erase t⟩
      status := update s.status t .ready
      woken := t :: s.woken }
  else none

/-- The section of `sema_up` with interrupts off. -/
def semaUp (s : SemaSys) : Option SemaSys :=
  match maxElem s.priority s.sema.waiters with
  | none => some s.give
  | some t => (s.wake t).map give

/-- `t` is not in the loop of `sema_down`. -/
def Outside (s : SemaSys) (t : Tid) : Prop := t ∉ s.sema.waiters ∧ t ∉ s.woken

instance (s : SemaSys) (t : Tid) : Decidable (s.Outside t) := inferInstanceAs (Decidable (_ ∧ _))

/-- A down that came through is counted. -/
def counted (r : Bool × SemaSys) : SemaSys := { r.2 with downs := r.2.downs + r.1.toNat }

end SemaSys

inductive SemaEvent where
  /-- `t` calls `sema_down`. -/
  | down (t : Tid)
  /-- `t` is back from `thread_block` in `sema_down` and tests the value again. -/
  | retest (t : Tid)
  /-- `sema_try_down`, by a thread or an interrupt handler. -/
  | tryDown
  /-- `sema_up`, by a thread or an interrupt handler. -/
  | up
  | setPriority (t : Tid) (priority : Int)
  /-- A status given to `t` by anything else: the scheduler, another semaphore, `thread_exit`. Only
      `sema_up` unblocks a waiter, and a woken thread does nothing before it tests the value. -/
  | elsewhere (t : Tid) (status : ThreadStatus)
  deriving DecidableEq, Repr

def semaStep (s : SemaSys) : SemaEvent → Option SemaSys
  | .down t =>
    if s.Outside t ∧ s.status t ≠ .blocked then some (.counted (s.semaTest t)) else none
  | .retest t =>
    if t ∈ s.woken then
      some (.counted (({ s with woken := s.woken.erase t } : SemaSys).semaTest t))
    else none
  | .tryDown => some (.counted s.semaTryDown)
  | .up => s.semaUp.map fun x => { x with ups := x.ups + 1 }
  | .setPriority t p => some { s with priority := update s.priority t p }
  | .elsewhere t st =>
    if t ∉ s.sema.waiters ∧ (t ∈ s.woken → st ≠ .blocked) then
      some { s with status := update s.status t st }
    else none

/-! ## 2. The scan of `sema_up` -/

/-- **The first waiter of the highest priority**: all before it are lower, none after it is higher. -/
def FirstMax (priority : Tid → Int) (l rest : List Tid) (t : Tid) : Prop :=
  ∃ before after, l = before ++ t :: after ∧ rest = before ++ after ∧
    (∀ u ∈ before, priority u < priority t) ∧ ∀ u ∈ after, priority u ≤ priority t

theorem foldl_max_split (p : Tid → Int) (l : List Tid) : ∀ t, ∃ before after,
      t :: l = before ++ l.foldl (fun m u => if p u > p m then u else m) t :: after ∧
      (∀ u ∈ before, p u < p (l.foldl (fun m u => if p u > p m then u else m) t)) ∧
      ∀ u ∈ after, p u ≤ p (l.foldl (fun m u => if p u > p m then u else m) t) := by
  induction l with
  | nil => exact fun t => ⟨[], [], rfl, by simp, by simp⟩
  | cons u l ih =>
    intro t
    simp only [foldl_cons]
    split
    · rename_i hgt
      obtain ⟨before, after, hl, hb, ha⟩ := ih u
      generalize l.foldl _ u = m at hl hb ha
      -- `u` is before `m`, or `m` itself
      have hu : p u ≤ p m := by
        cases before with
        | nil =>
          cases hl
          exact Int.le_refl _
        | cons v before =>
          cases hl
          exact Int.le_of_lt (hb u mem_cons_self)
      refine ⟨t :: before, after, by rw [hl]; rfl, ?_, ha⟩
      intro v hv
      rcases mem_cons.mp hv with rfl | hv
      · omega
      · exact hb v hv
    · rename_i hle
      obtain ⟨before, after, hl, hb, ha⟩ := ih t
      generalize l.foldl _ t = m at hl hb ha
      cases before with
      | nil =>
        cases hl
        refine ⟨[], u :: l, rfl, by simp, ?_⟩
        intro v hv
        rcases mem_cons.mp hv with rfl | hv
        · omega
        · exact ha v hv
      | cons v before =>
        cases hl
        have ht := hb t mem_cons_self
        refine ⟨t :: u :: before, after, rfl, ?_, ha⟩
        intro v hv
        rcases mem_cons.mp hv with rfl | hv
        · exact ht
        · rcases mem_cons.mp hv with rfl | hv
          · omega
          · exact hb v (mem_cons_of_mem _ hv)

variable {p : Tid → Int} {l : List Tid} {e : SemaEvent}

theorem maxElem_split {t : Tid} (h : maxElem p l = some t) : FirstMax p l (l.erase t) t := by
  cases l with
  | nil => cases h
  | cons u l =>
    obtain ⟨before, after, hl, hb, ha⟩ := foldl_max_split p l u
    cases h
    refine ⟨before, after, hl, ?_, hb, ha⟩
    have hn : l.foldl (fun m u => if p u > p m then u else m) u ∉ before := fun hm =>
      Int.lt_irrefl _ (hb _ hm)
    rw [hl, erase_append_right _ hn, erase_cons_head]

theorem maxElem_mem {t : Tid} (h : maxElem p l = some t) : t ∈ l := by
  obtain ⟨before, after, hl, -⟩ := maxElem_split h
  rw [hl]
  exact mem_append_right _ mem_cons_self

theorem maxElem_eq_none (h : maxElem p l = none) : l = [] := by
  cases l with
  | nil => rfl
  | cons u l => cases h

/-! ## 3. The invariant -/

/-- What holds of waiters and woken threads. `slack` is 1 while a woken thread tests the value. -/
structure SemaInv (slack : ℕ) (s : SemaSys) : Prop where
  nodup : s.sema.waiters.Nodup
  wokenNodup : s.woken.Nodup
  blocked : ∀ t ∈ s.sema.waiters, s.status t = .blocked
  awake : ∀ t ∈ s.woken, s.status t ≠ .blocked
  /-- **No wake-up is lost**: while someone waits, each unit has a woken thread that comes for it. -/
  noneLost : s.sema.waiters ≠ [] → s.sema.value ≤ s.woken.length + slack

namespace SemaInv

variable {s s' : SemaSys} {slack : ℕ} {t : Tid}

theorem init (v : UInt32) (status : Tid → ThreadStatus) (priority : Tid → Int) :
    SemaInv 0 (.semaInit v status priority) where
  nodup := nodup_nil
  wokenNodup := nodup_nil
  blocked _ h := absurd h not_mem_nil
  awake _ h := absurd h not_mem_nil
  noneLost h := absurd rfl h

theorem setStatus (h : SemaInv slack s) {st : ThreadStatus} (hw : t ∉ s.sema.waiters)
    (hk : t ∈ s.woken → st ≠ .blocked) :
    SemaInv slack { s with status := update s.status t st } where
  nodup := h.nodup
  wokenNodup := h.wokenNodup
  blocked u hu := by
    have hne : u ≠ t := fun e => hw (e ▸ hu)
    simpa only [update_of_ne hne] using h.blocked u hu
  awake u hu := by
    by_cases e : u = t
    · subst e
      simpa only [update_self] using hk hu
    · simpa only [update_of_ne e] using h.awake u hu
  noneLost := h.noneLost

/-- A thread that is on neither list starts to wait for a value of 0. -/
theorem block (h : SemaInv slack s) (ht : s.Outside t) (hv : s.sema.value = 0) :
    SemaInv 0 (s.block t) where
  nodup := by
    refine nodup_append.mpr ⟨h.nodup, nodup_singleton t, fun u hu w hw => ?_⟩
    rw [mem_singleton.mp hw]
    exact fun e => ht.1 (e ▸ hu)
  wokenNodup := h.wokenNodup
  blocked u hu := by
    by_cases e : u = t
    · subst e
      exact update_self ..
    · have hu' : u ∈ s.sema.waiters :=
        (mem_append.mp hu).resolve_right fun hm => e (mem_singleton.mp hm)
      exact (update_of_ne e ..).trans (h.blocked u hu')
  awake u hu := by
    have e : u ≠ t := fun e => ht.2 (e ▸ hu)
    simpa only [SemaSys.block, update_of_ne e] using h.awake u hu
  noneLost _ := by
    show s.sema.value ≤ _
    omega

theorem take (h : SemaInv 1 s) : SemaInv 0 s.take where
  __ := h
  noneLost hw := by
    have := h.noneLost hw
    show s.sema.value - 1 ≤ s.woken.length + 0
    omega

theorem weaken (h : SemaInv 0 s) : SemaInv 1 s where
  __ := h
  noneLost hw := Nat.le_succ_of_le (h.noneLost hw)

theorem semaTest (h : SemaInv 1 s) (ht : s.Outside t) :
    SemaInv 0 (.counted (s.semaTest t)) := by
  unfold SemaSys.semaTest
  split
  · rename_i hv
    exact { h.block ht hv with }
  · exact { h.take with }

/-- A thread that was woken is on neither list once it tests the value. -/
theorem retest (h : SemaInv 0 s) (ht : t ∈ s.woken) :
    SemaInv 1 { s with woken := s.woken.erase t } ∧
      ({ s with woken := s.woken.erase t } : SemaSys).Outside t := by
  refine ⟨⟨h.nodup, h.wokenNodup.erase t, h.blocked, fun u hu => h.awake u (mem_of_mem_erase hu),
    fun hw => ?_⟩, fun hw => h.awake t ht (h.blocked t hw), fun hm => ?_⟩
  · have := h.noneLost hw
    show s.sema.value ≤ (s.woken.erase t).length + 1
    rw [length_erase_of_mem ht]
    omega
  · exact (List.Nodup.mem_erase_iff h.wokenNodup).mp hm |>.1 rfl

/-- The value `sema_up` stores is covered by the thread it woke, or nobody waits. -/
theorem give (h : SemaInv 0 s) (hw : s.sema.waiters ≠ [] → s.sema.value < s.woken.length) :
    SemaInv 0 s.give where
  __ := h
  noneLost hne := by
    have := hw hne
    show (s.sema.value + 1) % 2 ^ 32 ≤ s.woken.length + 0
    omega

/-- **`sema_up` wakes a waiter**: the assertion of `thread_unblock` holds, and the unit that follows
    has a thread that comes for it. -/
theorem wake (h : SemaInv 0 s) (ht : t ∈ s.sema.waiters) :
    ∃ s', s.wake t = some s' ∧ SemaInv 0 s' ∧ s'.sema.value < s'.woken.length ∧
      s'.sema.waiters = s.sema.waiters.erase t := by
  have hout : t ∉ s.woken := fun hk => h.awake t hk (h.blocked t ht)
  refine ⟨_, if_pos (h.blocked t ht), ⟨h.nodup.erase t, nodup_cons.mpr ⟨hout, h.wokenNodup⟩,
    fun u hu => ?_, fun u hu => ?_, fun _ => ?_⟩, ?_, rfl⟩
  · have hu' := (List.Nodup.mem_erase_iff h.nodup).mp hu
    exact (update_of_ne hu'.1 ..).trans (h.blocked u hu'.2)
  · rcases mem_cons.mp hu with rfl | hu
    · simp
    · have e : u ≠ t := fun e => hout (e ▸ hu)
      simpa only [update_of_ne e] using h.awake u hu
  · exact Nat.le_succ_of_le (h.noneLost (ne_nil_of_mem ht))
  · exact Nat.lt_succ_of_le (h.noneLost (ne_nil_of_mem ht))

/-- **`sema_up` goes through**, and of the waiters it removes the first of the highest priority. -/
theorem semaUp (h : SemaInv 0 s) : ∃ s', s.semaUp = some s' ∧ SemaInv 0 s' ∧
      (s.sema.waiters ≠ [] → ∃ t, FirstMax s.priority s.sema.waiters s'.sema.waiters t) := by
  cases hm : maxElem s.priority s.sema.waiters with
  | none =>
    have hnil : s.sema.waiters = [] := maxElem_eq_none hm
    exact ⟨s.give, by simp only [SemaSys.semaUp, hm], h.give fun hw => absurd hnil hw,
      fun hw => absurd hnil hw⟩
  | some t =>
    obtain ⟨s₁, hs, h1, hlt, hl⟩ := h.wake (maxElem_mem hm)
    refine ⟨s₁.give, by simp only [SemaSys.semaUp, hm, hs, Option.map_some],
      h1.give fun _ => hlt, fun _ => ⟨t, ?_⟩⟩
    show FirstMax _ _ s₁.sema.waiters t
    rw [hl]
    exact maxElem_split hm

theorem step (h : SemaInv 0 s) (hs : semaStep s e = some s') : SemaInv 0 s' := by
  cases e with
  | down t =>
    simp only [semaStep] at hs
    split at hs
    · rename_i ht
      cases hs
      exact h.weaken.semaTest ht.1
    · cases hs
  | retest t =>
    simp only [semaStep] at hs
    split at hs
    · rename_i ht
      cases hs
      obtain ⟨h1, hout⟩ := h.retest ht
      exact h1.semaTest hout
    · cases hs
  | tryDown =>
    cases hs
    unfold SemaSys.semaTryDown
    split
    · exact { h.weaken.take with }
    · exact { h with }
  | up =>
    obtain ⟨s₁, hs1, h1, -⟩ := h.semaUp
    simp only [semaStep, hs1, Option.map_some] at hs
    cases hs
    exact { h1 with }
  | setPriority t p =>
    cases hs
    exact { h with }
  | elsewhere t st =>
    simp only [semaStep] at hs
    split at hs
    · rename_i ht
      cases hs
      exact h.setStatus ht.1 ht.2
    · cases hs

end SemaInv

/-! ## 4. The count -/

/-- The number `v + ups - downs` stays below `2 ^ 32`. -/
def NoWrap (v : ℕ) (s : SemaSys) (e : SemaEvent) : Prop :=
  e = .up → v + s.ups + 1 < 2 ^ 32 + s.downs

instance (v : ℕ) (s : SemaSys) (e : SemaEvent) : Decidable (NoWrap v s e) :=
  inferInstanceAs (Decidable (_ → _))

theorem SemaSys.semaUp_value {s s' : SemaSys} (h : s.semaUp = some s') :
    s'.sema.value = (s.sema.value + 1) % 2 ^ 32 ∧ s'.ups = s.ups ∧ s'.downs = s.downs := by
  unfold semaUp at h
  split at h
  · cases h
    exact ⟨rfl, rfl, rfl⟩
  · obtain ⟨s₁, hw, rfl⟩ := Option.map_eq_some_iff.mp h
    unfold wake at hw
    split at hw
    · cases hw
      exact ⟨rfl, rfl, rfl⟩
    · cases hw

/-- **The value counts** the ups and the downs. -/
def Counted (v : ℕ) (s : SemaSys) : Prop := s.sema.value + s.downs = v + s.ups

namespace Counted

variable {v : ℕ} {s s' : SemaSys}

theorem take (h : Counted v s) (hv : s.sema.value ≠ 0) : Counted v (.counted (true, s.take)) := by
  unfold Counted at h
  show s.sema.value - 1 + (s.downs + 1) = v + s.ups
  omega

theorem semaTest (h : Counted v s) (t : Tid) : Counted v (.counted (s.semaTest t)) := by
  unfold SemaSys.semaTest
  split
  · exact h
  · rename_i hv
    exact h.take hv

theorem semaUp (h : Counted v s) (hn : v + s.ups + 1 < 2 ^ 32 + s.downs)
    (hs : s.semaUp = some s') : Counted v { s' with ups := s'.ups + 1 } := by
  obtain ⟨hv, hu, hd⟩ := SemaSys.semaUp_value hs
  unfold Counted at h
  show s'.sema.value + s'.downs = v + (s'.ups + 1)
  rw [hv, hu, hd, Nat.mod_eq_of_lt (by omega)]
  omega

theorem step (h : Counted v s) (hn : NoWrap v s e) (hs : semaStep s e = some s') :
    Counted v s' := by
  cases e with
  | down t =>
    simp only [semaStep] at hs
    split at hs
    · cases hs
      exact h.semaTest t
    · cases hs
  | retest t =>
    simp only [semaStep] at hs
    split at hs
    · cases hs
      exact semaTest (s := { s with woken := s.woken.erase t }) h t
    · cases hs
  | tryDown =>
    cases hs
    unfold SemaSys.semaTryDown
    split
    · rename_i hv
      exact h.take (Nat.ne_of_gt hv)
    · exact h
  | up =>
    obtain ⟨x, hx, rfl⟩ := Option.map_eq_some_iff.mp hs
    exact h.semaUp (hn rfl) hx
  | setPriority t p =>
    cases hs
    exact h
  | elsewhere t st =>
    simp only [semaStep] at hs
    split at hs
    · cases hs
      exact h
    · cases hs

end Counted

/-! ## 5. Every run -/

/-- **Semaphore correctness**, in every state of every run. The value is exact as long as it stays
    below `2 ^ 32`; waiters are distinct and blocked, no wake-up is lost, and `sema_up` goes through,
    increments the value and removes one waiter if there is any: the first of the highest priority. -/
theorem semaphore_correct (v : UInt32) (status : Tid → ThreadStatus) (priority : Tid → Int)
    (s : SemaSys) : (Reach semaStep (NoWrap v.toNat) (.semaInit v status priority) s →
      (s.sema.value : Int) = v.toNat + s.ups - s.downs) ∧
    (Reach semaStep always (.semaInit v status priority) s →
      s.sema.waiters.Nodup ∧ (∀ t ∈ s.sema.waiters, s.status t = .blocked) ∧
      s.woken.Nodup ∧ (∀ t ∈ s.woken, s.status t ≠ .blocked) ∧
      (s.sema.waiters ≠ [] → s.sema.value ≤ s.woken.length) ∧
      ∃ s', semaStep s .up = some s' ∧ s'.sema.value = (s.sema.value + 1) % 2 ^ 32 ∧
        (s.sema.waiters ≠ [] → ∃ t, FirstMax s.priority s.sema.waiters s'.sema.waiters t)) := by
  constructor
  · intro hr
    have h : Counted v.toNat s :=
      hr.invariant (I := Counted v.toNat) rfl fun _ _ _ h hn hs => h.step hn hs
    unfold Counted at h
    omega
  · intro hr
    have h : SemaInv 0 s :=
      hr.invariant (SemaInv.init v status priority) fun _ _ _ h _ hs => h.step hs
    obtain ⟨s', hs, -, hmax⟩ := h.semaUp
    exact ⟨h.nodup, h.blocked, h.wokenNodup, h.awake, h.noneLost, _,
      Option.map_eq_some_iff.mpr ⟨s', hs, rfl⟩, (SemaSys.semaUp_value hs).1, hmax⟩

/-- Threads 1 and 2 wait; 2 is raised and woken, but a `sema_try_down` takes its unit, and it waits
    again, behind 1. -/
def bargingRun : List SemaEvent :=
  [.down 1, .down 2, .setPriority 2 40, .up, .tryDown, .retest 2]

theorem semaphore_correct_barging : ∃ s,
    runList (stepIf semaStep (NoWrap 0)) (.semaInit 0 (fun _ => .ready) fun _ => 31) bargingRun =
      some s ∧
      s.sema.waiters = [1, 2] ∧ (s.sema.value : Int) = 0 + 1 - 1 ∧
      ∃ s', semaStep s .up = some s' ∧ s'.sema.value = (s.sema.value + 1) % 2 ^ 32 ∧
        ∃ t, FirstMax s.priority s.sema.waiters s'.sema.waiters t := by
  have hrun : ((runList (stepIf semaStep (NoWrap 0))
      (.semaInit 0 (fun _ => .ready) fun _ => 31) bargingRun).map fun s =>
        (s.sema.waiters, s.ups, s.downs)) = some ([1, 2], 1, 1) := by decide
  obtain ⟨s, hs, he⟩ := Option.map_eq_some_iff.mp hrun
  have hw : s.sema.waiters = [1, 2] := congrArg (fun x => x.1) he
  have hu : s.ups = 1 := congrArg (fun x => x.2.1) he
  have hd : s.downs = 1 := congrArg (fun x => x.2.2) he
  have hr : Reach semaStep (NoWrap 0) (.semaInit 0 (fun _ => .ready) fun _ => 31) s :=
    reach_runIf _ hs
  have hc := semaphore_correct 0 (fun _ => .ready) (fun _ => 31) s
  obtain ⟨-, -, -, -, -, s', hs', hup, hmax⟩ := hc.2 (hr.mono fun _ _ _ => trivial)
  have hval := hc.1 hr
  rw [hu, hd] at hval
  exact ⟨s, hs, hw, hval, s', hs', hup, hmax (by rw [hw]; exact cons_ne_nil _ _)⟩

end Pintos
