/-
  Subject:   The numbers of the mlfqs scheduler stay in bounds, and no signed operation on them
             overflows.

  * The functions of Thread.lean compute with words that wrap around. Here they stand a second time
    over arithmetic that traps when a signed result does not fit (`trap`), operation by operation as
    the source has them. That nothing overflows is the statement that the trapping function ends and
    agrees with the other.
  * With a load average of at most `n` the coefficient of `BSD_calc_recent_cpu` is at most
    `2n / (2n + 1)`, so a value up to `cpuBound n` is brought below `cpuBase n`; the hundred ticks
    to the next second add at most the difference.
  * A thread named "idle" is neither charged nor brought down, but a thread that it creates inherits
    its value. The bound is kept if no such thread creates threads (`CreatorOk`), and not otherwise.
  * **`mlfqs_bounds`**: every run.
-/
import Mathlib.Tactic.Ring
import Pintos.Threads.ReadyQueues

namespace Pintos

open Lib List Option

/-! ## 1. Arithmetic that traps -/

/-- A 32-bit signed result. -/
def trap (x : Int) : Option Int := if -2 ^ 31 ≤ x ∧ x < 2 ^ 31 then some x else none

def fpConvertToFpT (n : Int) : Option Int := trap (n * fpFormat)

def fpAddT (a b : Int) : Rear → Option Int
  | .fp => trap (a + b)
  | .int => (trap (b * fpFormat)).bind fun p => trap (a + p)

def fpSubT (a b : Int) : Rear → Option Int
  | .fp => trap (a - b)
  | .int => (trap (b * fpFormat)).bind fun p => trap (a - p)

def fpMultT (a b : Int) : Rear → Option Int
  | .fp => trap ((a * b).tdiv fpFormat)
  | .int => trap (a * b)

def fpDevideT (a b : Int) (r : Rear) : Option Int :=
  if b = 0 then none
  else
    match r with
    | .fp => trap ((a * fpFormat).tdiv b)
    | .int => trap (a.tdiv b)

/-! ## 2. The functions over it -/

def bsdCalcPriorityThisT (recentCpu nice : Int) : Option Int := do
  let rcpu4 ← fpDevideT recentCpu 4 .int
  let nice2 ← trap (nice * 2)
  let rest ← trap (priMax - nice2)
  let rest ← fpConvertToFpT rest
  let priority ← fpSubT rest rcpu4 .fp
  let priority := fpConvertToIntDown priority
  let priority := if priority > priMax then priMax else priority
  return if priority < priMin then priMin else priority

/-- `ready_threads` of `BSD_calc_load_average`. -/
def readyThreads (s : Sched) : Int :=
  (((range 64).map fun i : ℕ => (s.readyList i).length).sum : ℕ) +
    (if s.name s.running = "idle" then 0 else 1)

def bsdCalcLoadAverageT (s : Sched) : Option Sched := do
  let readyThreads ← trap (readyThreads s)
  let d59 ← fpDevideT (← fpConvertToFpT 59) 60 .int
  let d1 ← fpDevideT (← fpConvertToFpT 1) 60 .int
  let loadAvg ← fpMultT s.loadAvg d59 .fp
  let loadAvg ← fpAddT loadAvg (← fpMultT d1 readyThreads .int) .fp
  return { s with loadAvg := loadAvg }

def bsdCalcRecentCpuStepT (coef : Int) (s : Sched) (t : Tid) : Option Sched :=
  if s.name t = "idle" then some s
  else do
    let decayed ← fpMultT coef (s.thr t).recentCpu .fp
    let recentCpu ← fpAddT decayed (s.thr t).nice .int
    return s.modify t fun th => { th with recentCpu := recentCpu }

def bsdCalcRecentCpuT (s : Sched) : Option Sched := do
  let coef ← fpMultT s.loadAvg 2 .int
  let coef ← fpDevideT coef (← fpAddT coef 1 .int) .fp
  s.allList.foldlM (bsdCalcRecentCpuStepT coef) s

/-- One turn of the loop of `BSD_calc_priority`; after the arithmetic it is the turn of
    Thread.lean. -/
def bsdCalcPriorityStepT (sy : Sched × Bool) (t : Tid) : Option (Sched × Bool) :=
  if sy.1.name t = "idle" then some sy
  else
    (bsdCalcPriorityThisT (sy.1.thr t).recentCpu (sy.1.thr t).nice).map fun _ =>
      bsdCalcPriorityStep sy t

def bsdCalcPriorityT (s : Sched) : Option Sched := do
  let (s, yield) ← s.allList.foldlM bsdCalcPriorityStepT (s, false)
  return if yield && s.inExternalIntr then { s with yieldOnReturn := true } else s

/-- The first statement of `BSD_schedule`. -/
def bsdChargeT (s : Sched) : Option Sched :=
  if s.name s.running ≠ "idle" then
    (fpAddT (s.thr s.running).recentCpu 1 .int).map fun recentCpu =>
      s.modify s.running fun th => { th with recentCpu := recentCpu }
  else some s

/-- The second one. -/
def bsdSecondT (s : Sched) : Option Sched :=
  if s.ticks.tmod timerFreq = 0 then (bsdCalcLoadAverageT s).bind bsdCalcRecentCpuT else some s

def bsdScheduleT (s : Sched) : Option Sched :=
  (bsdChargeT s).bind fun s => (bsdSecondT s).bind fun s =>
    if s.ticks.tmod 4 = 0 then bsdCalcPriorityT s else some s

/-! ## 3. Operations that fit -/

section Arith

variable {a b x : Int}

theorem int32_eq (h : -2 ^ 31 ≤ x ∧ x < 2 ^ 31) : int32 x = x := by
  unfold int32
  rw [Int.bmod_eq_of_le] <;> omega

theorem trap_eq (h : -2 ^ 31 ≤ x ∧ x < 2 ^ 31) : trap x = some (int32 x) := by
  rw [int32_eq h, trap, if_pos h]

theorem fpAdd_int (hb : -2 ^ 31 ≤ b * 16384 ∧ b * 16384 < 2 ^ 31)
    (h : -2 ^ 31 ≤ a + b * 16384 ∧ a + b * 16384 < 2 ^ 31) :
    fpAddT a b .int = some (fpAdd a b .int) ∧ fpAdd a b .int = a + b * 16384 := by
  simp only [fpAddT, fpAdd, fpFormat]
  rw [trap_eq hb, int32_eq hb, bind_some, trap_eq h, int32_eq h]
  exact ⟨rfl, rfl⟩

theorem fpAdd_fp (h : -2 ^ 31 ≤ a + b ∧ a + b < 2 ^ 31) :
    fpAddT a b .fp = some (fpAdd a b .fp) ∧ fpAdd a b .fp = a + b :=
  ⟨trap_eq h, int32_eq h⟩

theorem fpMult_fp (h : -2 ^ 31 ≤ (a * b).tdiv 16384 ∧ (a * b).tdiv 16384 < 2 ^ 31) :
    fpMultT a b .fp = some (fpMult a b .fp) ∧ fpMult a b .fp = (a * b).tdiv 16384 :=
  ⟨trap_eq h, int32_eq h⟩

theorem fpMult_int (h : -2 ^ 31 ≤ a * b ∧ a * b < 2 ^ 31) :
    fpMultT a b .int = some (fpMult a b .int) ∧ fpMult a b .int = a * b :=
  ⟨trap_eq h, int32_eq h⟩

theorem fpDevide_fp (hb : b ≠ 0) (h : -2 ^ 31 ≤ (a * 16384).tdiv b ∧ (a * 16384).tdiv b < 2 ^ 31) :
    fpDevideT a b .fp = some (fpDevide a b .fp) ∧ fpDevide a b .fp = (a * 16384).tdiv b := by
  unfold fpDevideT
  rw [if_neg hb]
  exact ⟨trap_eq h, int32_eq h⟩

theorem fpDevide_int (hb : b ≠ 0) (h : -2 ^ 31 ≤ a.tdiv b ∧ a.tdiv b < 2 ^ 31) :
    fpDevideT a b .int = some (fpDevide a b .int) ∧ fpDevide a b .int = a.tdiv b := by
  unfold fpDevideT
  rw [if_neg hb]
  exact ⟨trap_eq h, int32_eq h⟩

variable {d m : Int}

theorem tdiv_of_nonpos (hx : x ≤ 0) : x.tdiv d = -(-x / d) := by
  rw [← Int.tdiv_eq_ediv_of_nonneg (by omega), Int.neg_tdiv, Int.neg_neg]

/-- Division that truncates, between two multiples of the divisor. -/
theorem tdiv_between {n : Int} (hd : 0 < d) (hlow : -(m * d) ≤ x) (hhigh : x ≤ n * d) (hm : 0 ≤ m)
    (hn : 0 ≤ n) : -m ≤ x.tdiv d ∧ x.tdiv d ≤ n := by
  rcases Int.le_total 0 x with hx | hx
  · rw [Int.tdiv_eq_ediv_of_nonneg hx]
    refine ⟨?_, Int.ediv_le_of_le_mul hd hhigh⟩
    have := Int.ediv_nonneg hx (Int.le_of_lt hd)
    omega
  · rw [tdiv_of_nonpos hx]
    have hle : (-x) / d ≤ m := Int.ediv_le_of_le_mul hd (by omega)
    have hge : 0 ≤ (-x) / d := Int.ediv_nonneg (by omega) (Int.le_of_lt hd)
    omega

end Arith

/-! ## 4. One update -/

/-- What every `recent_cpu` is brought below each second, if the load average is at most `n`. -/
def cpuBase (n : ℕ) : Int := (240 * n + 20) * 16384

/-- What it never exceeds. -/
def cpuBound (n : ℕ) : Int := 120 * (2 * n + 1) * 16384

/-- The divisor in `BSD_calc_recent_cpu`, for a load average. -/
def cpuDivisor (loadAvg : Int) : Int := fpAdd (fpMult loadAvg 2 .int) 1 .int

/-- The coefficient in `BSD_calc_recent_cpu`. -/
def cpuCoef (loadAvg : Int) : Int := fpDevide (fpMult loadAvg 2 .int) (cpuDivisor loadAvg) .fp

variable {c nice p r v : Int} {ι σ : Type} {k' : ℕ} {name : String}

section Update

variable {n : ℕ} {l : Int}

theorem cpuBound_eq (n : ℕ) : cpuBound n = cpuBase n + 100 * 16384 := by
  unfold cpuBound cpuBase
  ring

theorem cpuBound_lt (hn : n ≤ 545) : cpuBound n < 2 ^ 31 := by
  unfold cpuBound
  omega

/-- The coefficient is computed without overflow and is at most `2n / (2n + 1)`. -/
theorem coef_spec (hn : n ≤ 545) (h0 : 0 ≤ l) (hl : l ≤ n * 16384) :
    fpMultT l 2 .int = some (fpMult l 2 .int) ∧
      fpAddT (fpMult l 2 .int) 1 .int = some (cpuDivisor l) ∧
      fpDevideT (fpMult l 2 .int) (cpuDivisor l) .fp = some (cpuCoef l) ∧
      16384 ≤ cpuDivisor l ∧ 0 ≤ cpuCoef l ∧ cpuCoef l < 16384 ∧
      cpuCoef l * (2 * n + 1) ≤ 2 * n * 16384 := by
  obtain ⟨hm, hmv⟩ := fpMult_int (a := l) (b := 2) (by omega)
  obtain ⟨ha, hav⟩ := fpAdd_int (a := fpMult l 2 .int) (b := 1) (by omega) (by omega)
  have hd : cpuDivisor l = l * 2 + 16384 := by
    unfold cpuDivisor
    omega
  have hnum : 0 ≤ fpMult l 2 .int * 16384 := by omega
  have hquot : (fpMult l 2 .int * 16384).tdiv (cpuDivisor l) =
      l * 2 * 16384 / (l * 2 + 16384) := by
    rw [Int.tdiv_eq_ediv_of_nonneg hnum, hmv, hd]
  have hpos : 0 < l * 2 + 16384 := by omega
  have hge : 0 ≤ l * 2 * 16384 / (l * 2 + 16384) := Int.ediv_nonneg (by omega) (by omega)
  have hlt : l * 2 * 16384 / (l * 2 + 16384) < 16384 := Int.ediv_lt_of_lt_mul hpos (by linarith)
  obtain ⟨hv, hvv⟩ := fpDevide_fp (a := fpMult l 2 .int) (b := cpuDivisor l) (by omega)
    (by rw [hquot]; omega)
  have hc : cpuCoef l = l * 2 * 16384 / (l * 2 + 16384) := hvv.trans hquot
  refine ⟨hm, ha, hv, by omega, by omega, by omega, ?_⟩
  -- c (2l + F) ≤ 2l F, so c F ≤ 2l (F - c) ≤ 2n F (F - c)
  have hle : l * 2 * 16384 / (l * 2 + 16384) * (l * 2 + 16384) ≤ l * 2 * 16384 :=
    Int.ediv_mul_le _ (Int.ne_of_gt hpos)
  rw [hc]
  generalize l * 2 * 16384 / (l * 2 + 16384) = c at hge hlt hle ⊢
  nlinarith

theorem load_spec (hn : n ≤ 545) (h0 : 0 ≤ l) (hl : l ≤ n * 16384) (hr0 : 0 ≤ r) (hr : r ≤ n) :
    fpMultT l 16110 .fp = some (fpMult l 16110 .fp) ∧
      fpMultT 273 r .int = some (fpMult 273 r .int) ∧
      fpAddT (fpMult l 16110 .fp) (fpMult 273 r .int) .fp =
        some (fpAdd (fpMult l 16110 .fp) (fpMult 273 r .int) .fp) ∧
      0 ≤ fpAdd (fpMult l 16110 .fp) (fpMult 273 r .int) .fp ∧
      fpAdd (fpMult l 16110 .fp) (fpMult 273 r .int) .fp ≤ n * 16384 := by
  have hbetween := tdiv_between (x := l * 16110) (m := 0) (n := n * 16110) (d := 16384) (by omega)
    (by omega) (by linarith) (by omega) (by omega)
  obtain ⟨hm, hmv⟩ := fpMult_fp (a := l) (b := 16110) (by omega)
  obtain ⟨hd, hdv⟩ := fpMult_int (a := 273) (b := r) (by omega)
  obtain ⟨ha, hav⟩ := fpAdd_fp (a := fpMult l 16110 .fp) (b := fpMult 273 r .int) (by omega)
  exact ⟨hm, hd, ha, by omega, by omega⟩

/-- **One second's decay** brings a value from `cpuBound` below `cpuBase`. -/
theorem decay_spec (hn : n ≤ 545) (hc0 : 0 ≤ c) (hc : c * (2 * n + 1) ≤ 2 * n * 16384)
    (hr : -cpuBound n ≤ r ∧ r ≤ cpuBound n) (hnice : -20 ≤ nice ∧ nice ≤ 20) :
    fpMultT c r .fp = some (fpMult c r .fp) ∧
      fpAddT (fpMult c r .fp) nice .int = some (fpAdd (fpMult c r .fp) nice .int) ∧
      -cpuBase n ≤ fpAdd (fpMult c r .fp) nice .int ∧
      fpAdd (fpMult c r .fp) nice .int ≤ cpuBase n := by
  have hmax : c * cpuBound n ≤ 240 * n * 16384 * 16384 := by
    unfold cpuBound
    nlinarith
  have hhigh : c * r ≤ c * cpuBound n := Int.mul_le_mul_of_nonneg_left hr.2 hc0
  have hlow : c * -cpuBound n ≤ c * r := Int.mul_le_mul_of_nonneg_left hr.1 hc0
  have hbetween := tdiv_between (x := c * r) (m := 240 * n * 16384) (n := 240 * n * 16384)
    (d := 16384) (by omega) (by linarith) (by linarith) (by omega) (by omega)
  obtain ⟨hm, hmv⟩ := fpMult_fp (a := c) (b := r) (by omega)
  obtain ⟨ha, hav⟩ := fpAdd_int (a := fpMult c r .fp) (b := nice) (by omega) (by omega)
  unfold cpuBase
  exact ⟨hm, ha, by omega, by omega⟩

theorem priority_spec (hr : -2 ^ 31 ≤ r ∧ r < 2 ^ 31) (hnice : -20 ≤ nice ∧ nice ≤ 20) :
    bsdCalcPriorityThisT r nice = some (bsdCalcPriorityThis r nice) := by
  have hbetween := tdiv_between (x := r) (m := 2 ^ 29) (n := 2 ^ 29) (d := 4) (by omega)
    (by omega) (by omega) (by omega) (by omega)
  obtain ⟨hd, hdv⟩ := fpDevide_int (a := r) (b := 4) (by omega) (by omega)
  have hn2 : -2 ^ 31 ≤ nice * 2 ∧ nice * 2 < 2 ^ 31 := by omega
  have hrest : -2 ^ 31 ≤ priMax - nice * 2 ∧ priMax - nice * 2 < 2 ^ 31 := by
    unfold priMax
    omega
  have hfp : -2 ^ 31 ≤ (priMax - nice * 2) * fpFormat ∧
      (priMax - nice * 2) * fpFormat < 2 ^ 31 := by
    unfold priMax fpFormat
    omega
  have hsub : -2 ^ 31 ≤ (priMax - nice * 2) * fpFormat - fpDevide r 4 .int ∧
      (priMax - nice * 2) * fpFormat - fpDevide r 4 .int < 2 ^ 31 := by
    unfold priMax fpFormat
    omega
  unfold bsdCalcPriorityThisT bsdCalcPriorityThis fpConvertToFpT fpConvertToFp
  simp only [hd, trap_eq hn2, int32_eq hn2, trap_eq hrest, int32_eq hrest, trap_eq hfp,
    int32_eq hfp, fpSubT, fpSub, trap_eq hsub, int32_eq hsub, bind_eq_bind,
    bind_some, pure]

end Update

/-! ## 5. What the other functions leave alone -/

theorem Sched.thr_modify (s : Sched) (t : Tid) (f : Thread → Thread) (u : Tid) :
    (s.modify t f).thr u = if u = t then f (s.thr t) else s.thr u := by
  unfold Sched.modify
  by_cases e : u = t
  · subst e
    simp
  · simp [e]

/-- **The numbers are untouched**, and nobody joins `all_list`. -/
structure SameNumbers (s s' : Sched) : Prop where
  loadAvg : s'.loadAvg = s.loadAvg
  ticks : s'.ticks = s.ticks
  mlfqs : s'.mlfqs = s.mlfqs
  name : ∀ t, (s'.thr t).name = (s.thr t).name
  nice : ∀ t, (s'.thr t).nice = (s.thr t).nice
  recentCpu : ∀ t, (s'.thr t).recentCpu = (s.thr t).recentCpu
  all : ∀ t ∈ s'.allList, t ∈ s.allList

namespace SameNumbers

variable {s s' s'' : Sched} {t : Tid}

theorem refl (s : Sched) : SameNumbers s s :=
  ⟨rfl, rfl, rfl, fun _ => rfl, fun _ => rfl, fun _ => rfl, fun _ h => h⟩

theorem trans (h : SameNumbers s s') (h' : SameNumbers s' s'') : SameNumbers s s'' where
  loadAvg := h'.loadAvg.trans h.loadAvg
  ticks := h'.ticks.trans h.ticks
  mlfqs := h'.mlfqs.trans h.mlfqs
  name t := (h'.name t).trans (h.name t)
  nice t := (h'.nice t).trans (h.nice t)
  recentCpu t := (h'.recentCpu t).trans (h.recentCpu t)
  all t ht := h.all t (h'.all t ht)

theorem modify {f : Thread → Thread} (hnm : (f (s.thr t)).name = (s.thr t).name)
    (hni : (f (s.thr t)).nice = (s.thr t).nice)
    (hrc : (f (s.thr t)).recentCpu = (s.thr t).recentCpu) : SameNumbers s (s.modify t f) := by
  refine ⟨rfl, rfl, rfl, fun u => ?_, fun u => ?_, fun u => ?_, fun _ h => h⟩
  all_goals
    rw [Sched.thr_modify]
    split
    · rename_i e
      subst e
      assumption
    · rfl

theorem setStatus (t : Tid) (st : ThreadStatus) : SameNumbers s (s.setStatus t st) :=
  modify rfl rfl rfl

theorem setPriority (t : Tid) (p : Int) : SameNumbers s (s.setPriority t p) :=
  modify rfl rfl rfl

theorem of_eq (s s' : Sched) (hthr : s'.thr = s.thr) (hl : s'.loadAvg = s.loadAvg)
    (ht : s'.ticks = s.ticks) (hm : s'.mlfqs = s.mlfqs) (ha : s'.allList = s.allList) :
    SameNumbers s s' :=
  ⟨hl, ht, hm, fun _ => by rw [hthr], fun _ => by rw [hthr], fun _ => by rw [hthr],
    fun _ h => ha ▸ h⟩

theorem requeue (t : Tid) (p : Int) : SameNumbers s (s.requeue t p) :=
  (setPriority t p).trans (of_eq _ _ rfl rfl rfl rfl rfl)

theorem schedule (hs : Pintos.schedule s = some s') : SameNumbers s s' := by
  unfold Pintos.schedule at hs
  split at hs
  · rename_i next s₁ hn
    cases hs
    have hkeep : SameNumbers s { s₁ with running := next } := by
      unfold nextThreadToRun at hn
      split at hn
      all_goals
        split at hn
        · cases hn
          exact of_eq _ _ rfl rfl rfl rfl rfl
        · cases hn
    exact hkeep.trans ((setStatus next .running).trans (of_eq _ _ rfl rfl rfl rfl rfl))
  · cases hs

theorem threadYield (hs : Pintos.threadYield s = some s') : SameNumbers s s' := by
  unfold Pintos.threadYield at hs
  split at hs
  · cases hs
  · refine trans ?_ (schedule hs)
    refine trans ?_ (setStatus _ .ready)
    split
    · exact of_eq _ _ rfl rfl rfl rfl rfl
    · refine (of_eq s (({ s with intr := .off } : Sched).pushReady (s.priority s.running)
        s.running) rfl rfl rfl rfl rfl).trans ?_
      exact modify rfl rfl rfl

theorem unblockSection (hs : Pintos.unblockSection s t = some (p, s')) : SameNumbers s s' := by
  unfold Pintos.unblockSection at hs
  split at hs
  · cases hs
    exact (of_eq s (s.pushReady (s.priority t) t) rfl rfl rfl rfl rfl).trans (setStatus t .ready)
  · cases hs

theorem yieldIf {c : Prop} [Decidable c] (h : SameNumbers s s')
    (hs : (if c then Pintos.threadYield s' else some s') = some s'') : SameNumbers s s'' := by
  split at hs
  · exact h.trans (threadYield hs)
  · cases hs
    exact h

theorem threadUnblock (hs : Pintos.threadUnblock s t = some s') : SameNumbers s s' := by
  unfold Pintos.threadUnblock at hs
  split at hs
  · rename_i p s₁ hu
    exact yieldIf (unblockSection hu) hs
  · cases hs

theorem threadExit {waiter : Option Tid} (hs : Pintos.threadExit s waiter = some s') :
    SameNumbers s s' := by
  unfold Pintos.threadExit at hs
  dsimp only at hs
  split at hs
  · rename_i s₁ hw
    have hwoken : SameNumbers s s₁ := by
      cases waiter with
      | none =>
        cases hw
        exact of_eq _ _ rfl rfl rfl rfl rfl
      | some w =>
        obtain ⟨⟨p, s₂⟩, hu, rfl⟩ := map_eq_some_iff.mp hw
        exact (of_eq s { s with intr := .off } rfl rfl rfl rfl rfl).trans (unblockSection hu)
    have herase : SameNumbers s₁ { s₁ with allList := s₁.allList.erase s₁.running } :=
      ⟨rfl, rfl, rfl, fun _ => rfl, fun _ => rfl, fun _ => rfl, fun _ h => mem_of_mem_erase h⟩
    exact hwoken.trans (herase.trans ((setStatus _ .dying).trans (schedule hs)))
  · cases hs

theorem calcPriorityStep (y : Bool) (t : Tid) : SameNumbers s (bsdCalcPriorityStep (s, y) t).1 := by
  unfold bsdCalcPriorityStep
  dsimp only
  split
  · exact refl s
  split
  · exact requeue _ _
  · exact setPriority _ _

theorem agingStep (sy : Sched × Bool) (t : Tid) : SameNumbers sy.1 (Pintos.agingStep sy t).1 := by
  unfold Pintos.agingStep
  dsimp only
  split
  · exact requeue _ _
  · exact refl _

theorem foldl {step : Sched × Bool → ι → Sched × Bool}
    (hstep : ∀ sy i, SameNumbers sy.1 (step sy i).1) (l : List ι) (sy : Sched × Bool) :
    SameNumbers sy.1 (l.foldl step sy).1 :=
  foldlRecOn l step (motive := fun x => SameNumbers sy.1 x.1) (refl sy.1)
    fun _ h i _ => h.trans (hstep _ i)

theorem calcPriority : SameNumbers s (bsdCalcPriority s) := by
  have hw := foldl (fun sy t => calcPriorityStep (s := sy.1) sy.2 t) s.allList (s, false)
  unfold bsdCalcPriority
  generalize s.allList.foldl bsdCalcPriorityStep (s, false) = sy at hw
  obtain ⟨s', y⟩ := sy
  dsimp only
  split
  · exact hw.trans (of_eq _ _ rfl rfl rfl rfl rfl)
  · exact hw

theorem threadAging : SameNumbers s (Pintos.threadAging s) := by
  have hlevel : ∀ (sy : Sched × Bool) (i : ℕ), SameNumbers sy.1 (agingLevel sy i).1 :=
    fun sy i => foldl agingStep (sy.1.readyList i) sy
  have hw := foldl hlevel (range 63).reverse (s, false)
  unfold Pintos.threadAging
  generalize (range 63).reverse.foldl agingLevel (s, false) = sy at hw
  obtain ⟨s', y⟩ := sy
  dsimp only
  split
  · exact hw.trans (of_eq _ _ rfl rfl rfl rfl rfl)
  · exact hw

theorem wakes {s' : Sched} : ∀ (woken : List Tid) {s : Sched},
    woken.foldl wakeStep (some s) = some s' → SameNumbers s s'
  | [], s, hs => by
    cases hs
    exact refl _
  | t :: woken, s, hs => by
    rw [foldl_cons] at hs
    cases hw : wakeStep (some s) t with
    | none =>
      rw [hw, foldl_wakeStep_none] at hs
      cases hs
    | some s₁ =>
      rw [hw] at hs
      obtain ⟨s₂, hu, rfl⟩ := map_eq_some_iff.mp hw
      have hwoken : SameNumbers s₂ { s₂ with yieldOnReturn := true } :=
        of_eq _ _ rfl rfl rfl rfl rfl
      exact ((threadUnblock hu).trans hwoken).trans (wakes woken hs)

theorem intrExit (hs : Pintos.intrExit s = some s') : SameNumbers s s' := by
  unfold Pintos.intrExit at hs
  dsimp only at hs
  split at hs
  · exact (of_eq s { s with inExternalIntr := false } rfl rfl rfl rfl rfl).trans (threadYield hs)
  · cases hs
    exact of_eq _ _ rfl rfl rfl rfl rfl

end SameNumbers

/-! ## 6. The invariant through a tick -/

/-- **The numbers are in bounds**, `k` ticks after the last second. -/
structure BsdInv (n k : ℕ) (s : Sched) : Prop where
  mlfqs : s.mlfqs = true
  load : 0 ≤ s.loadAvg ∧ s.loadAvg ≤ n * 16384
  nice : ∀ t, -20 ≤ (s.thr t).nice ∧ (s.thr t).nice ≤ 20
  low : ∀ t, -cpuBase n ≤ (s.thr t).recentCpu
  high : ∀ t, (s.thr t).recentCpu ≤ cpuBound n
  /-- A thread that the walks meet and do not skip. -/
  live : ∀ t ∈ s.allList, s.name t ≠ "idle" → (s.thr t).recentCpu ≤ cpuBase n + k * 16384

namespace BsdInv

variable {n k : ℕ} {s s' : Sched}

theorem same (h : BsdInv n k s) (hs : SameNumbers s s') : BsdInv n k s' where
  mlfqs := hs.mlfqs.trans h.mlfqs
  load := hs.loadAvg ▸ h.load
  nice t := hs.nice t ▸ h.nice t
  low t := hs.recentCpu t ▸ h.low t
  high t := hs.recentCpu t ▸ h.high t
  live t ht hn := by
    rw [hs.recentCpu]
    refine h.live t (hs.all t ht) fun he => hn ?_
    exact (hs.name t).trans he

theorem between (h : BsdInv n k s) (t : Tid) :
    -cpuBound n ≤ (s.thr t).recentCpu ∧ (s.thr t).recentCpu ≤ cpuBound n := by
  have hlow := h.low t
  have hbound := cpuBound_eq n
  exact ⟨by omega, h.high t⟩

theorem fits (h : BsdInv n k s) (hn : n ≤ 545) (t : Tid) :
    -2 ^ 31 ≤ (s.thr t).recentCpu ∧ (s.thr t).recentCpu < 2 ^ 31 := by
  have hb := h.between t
  have hlt := cpuBound_lt hn
  omega

theorem setCpu (h : BsdInv n k s) (t : Tid) (hk : k ≤ k') (hk' : k' ≤ 100) (hlow : -cpuBase n ≤ v)
    (hhigh : v ≤ cpuBase n + k' * 16384) :
    BsdInv n k' (s.modify t fun th => { th with recentCpu := v }) := by
  have hbound := cpuBound_eq n
  have hthr := s.thr_modify t fun th => { th with recentCpu := v }
  refine ⟨h.mlfqs, h.load, fun u => ?_, fun u => ?_, fun u => ?_, fun u hu hname => ?_⟩
  · rw [hthr]
    split
    · exact h.nice t
    · exact h.nice u
  · rw [hthr]
    split
    · exact hlow
    · exact h.low u
  · rw [hthr]
    split
    · show v ≤ _
      omega
    · exact h.high u
  · have hname' : s.name u ≠ "idle" := fun he => hname ((s.name_modify (t := t)
      (f := fun th => { th with recentCpu := v }) rfl u).trans he)
    rw [hthr]
    split
    · exact hhigh
    · have hle := h.live u hu hname'
      omega

theorem charge (h : BsdInv n k s) (hn : n ≤ 545) (hk : k < 100) (hall : s.running ∈ s.allList)
    (hidle : s.name s.running ≠ "idle") : fpAddT (s.thr s.running).recentCpu 1 .int =
        some (fpAdd (s.thr s.running).recentCpu 1 .int) ∧
      BsdInv n (k + 1) (s.modify s.running fun th =>
        { th with recentCpu := fpAdd th.recentCpu 1 .int }) := by
  have hlive := h.live _ hall hidle
  have hlow := h.low s.running
  have hbound := cpuBound_eq n
  have hlt := cpuBound_lt hn
  obtain ⟨hT, hval⟩ := fpAdd_int (a := (s.thr s.running).recentCpu) (b := 1) (by omega) (by omega)
  exact ⟨hT, h.setCpu s.running (v := fpAdd (s.thr s.running).recentCpu 1 .int)
    (Nat.le_succ k) hk (by omega) (by omega)⟩

theorem loadAverage (h : BsdInv n k s) (hn : n ≤ 545) (hr : readyThreads s ≤ n) :
    bsdCalcLoadAverageT s = some (bsdCalcLoadAverage s) ∧ BsdInv n k (bsdCalcLoadAverage s) := by
  have hr0 : 0 ≤ readyThreads s := by
    unfold readyThreads
    split <;> omega
  have hfit : -2 ^ 31 ≤ readyThreads s ∧ readyThreads s < 2 ^ 31 := by omega
  have h59 : fpDevide (fpConvertToFp 59) 60 .int = 16110 := by decide
  have h1 : fpDevide (fpConvertToFp 1) 60 .int = 273 := by decide
  have h59T : fpConvertToFpT 59 = some 966656 ∧ fpDevideT 966656 60 .int = some 16110 := by decide
  have h1T : fpConvertToFpT 1 = some 16384 ∧ fpDevideT 16384 60 .int = some 273 := by decide
  obtain ⟨hm, hd, ha, hge, hle⟩ := load_spec hn h.load.1 h.load.2 hr0 hr
  have hnew : bsdCalcLoadAverage s = { s with
      loadAvg := fpAdd (fpMult s.loadAvg 16110 .fp) (fpMult 273 (readyThreads s) .int) .fp } := by
    unfold bsdCalcLoadAverage
    simp only [h59, h1]
    rw [← int32_eq hfit]
    rfl
  rw [hnew]
  refine ⟨?_, h.mlfqs, ⟨hge, hle⟩, h.nice, h.low, h.high, h.live⟩
  unfold bsdCalcLoadAverageT
  simp only [trap_eq hfit, int32_eq hfit, h59T.1, h59T.2, h1T.1, h1T.2, hm, hd, ha,
    bind_eq_bind, bind_some, pure]

/-- One turn of `BSD_calc_recent_cpu`, with a coefficient of at most `2n / (2n + 1)`. -/
theorem recentCpuStep (hc0 : 0 ≤ c) (hc : c * (2 * n + 1) ≤ 2 * n * 16384) (hn : n ≤ 545)
    (h : BsdInv n 100 s) (t : Tid) :
    bsdCalcRecentCpuStepT c s t = some (bsdCalcRecentCpuStep c s t) ∧
      BsdInv n 100 (bsdCalcRecentCpuStep c s t) := by
  unfold bsdCalcRecentCpuStepT bsdCalcRecentCpuStep
  split
  · exact ⟨rfl, h⟩
  · obtain ⟨hm, ha, hlow, hhigh⟩ := decay_spec hn hc0 hc (h.between t) (h.nice t)
    refine ⟨?_, h.setCpu t (v := fpAdd (fpMult c (s.thr t).recentCpu .fp) (s.thr t).nice .int)
      (Nat.le_refl _) (Nat.le_refl _) hlow (by omega)⟩
    simp only [hm, ha, bind_eq_bind, bind_some, pure]
    rfl

end BsdInv

theorem foldlM_eq_some {I : σ → Prop} {f : σ → ι → Option σ} {g : σ → ι → σ}
    (hstep : ∀ s i, I s → f s i = some (g s i) ∧ I (g s i)) : ∀ (l : List ι) (s : σ), I s →
    l.foldlM f s = some (l.foldl g s) ∧ I (l.foldl g s)
  | [], s, h => ⟨rfl, h⟩
  | i :: l, s, h => by
    obtain ⟨hf, hg⟩ := hstep s i h
    rw [foldlM_cons, hf]
    exact foldlM_eq_some hstep l (g s i) hg

/-- **What the walk of `BSD_calc_recent_cpu` leaves**: a thread that it meets and does not skip is
    brought down, any other keeps its value or is brought down. -/
theorem recentCpu_walk {n : ℕ} (hc0 : 0 ≤ c) (hc : c * (2 * n + 1) ≤ 2 * n * 16384) (hn : n ≤ 545) :
    ∀ (l : List Tid) {s : Sched}, BsdInv n 100 s →
    (∀ t, (l.foldl (bsdCalcRecentCpuStep c) s).name t = s.name t) ∧
      (l.foldl (bsdCalcRecentCpuStep c) s).allList = s.allList ∧
      (∀ t, (s.thr t).recentCpu ≤ cpuBase n →
        ((l.foldl (bsdCalcRecentCpuStep c) s).thr t).recentCpu ≤ cpuBase n) ∧
      ∀ t ∈ l, s.name t ≠ "idle" →
        ((l.foldl (bsdCalcRecentCpuStep c) s).thr t).recentCpu ≤ cpuBase n
  | [], s, _ => ⟨fun _ => rfl, rfl, fun _ h => h, nofun⟩
  | u :: l, s, h => by
    obtain ⟨-, hinv⟩ := BsdInv.recentCpuStep hc0 hc hn h u
    obtain ⟨hname, hall, hkeep, hmet⟩ := recentCpu_walk hc0 hc hn l hinv
    -- the turn on `u`
    have hturn : (∀ t, (bsdCalcRecentCpuStep c s u).name t = s.name t) ∧
        (bsdCalcRecentCpuStep c s u).allList = s.allList ∧
        (∀ t, (s.thr t).recentCpu ≤ cpuBase n →
          ((bsdCalcRecentCpuStep c s u).thr t).recentCpu ≤ cpuBase n) ∧
        (s.name u ≠ "idle" → ((bsdCalcRecentCpuStep c s u).thr u).recentCpu ≤ cpuBase n) := by
      obtain ⟨-, -, -, hhigh⟩ := decay_spec hn hc0 hc (h.between u) (h.nice u)
      unfold bsdCalcRecentCpuStep
      split
      · rename_i hidle
        exact ⟨fun _ => rfl, rfl, fun _ h => h, fun hne => absurd hidle hne⟩
      · refine ⟨fun t => s.name_modify rfl t, rfl, fun t ht => ?_, fun _ => ?_⟩
        · rw [Sched.thr_modify]
          split
          · exact hhigh
          · exact ht
        · rw [Sched.thr_modify, if_pos rfl]
          exact hhigh
    rw [foldl_cons]
    refine ⟨fun t => (hname t).trans (hturn.1 t), hall.trans hturn.2.1,
      fun t ht => hkeep t (hturn.2.2.1 t ht), fun t ht hne => ?_⟩
    rcases mem_cons.mp ht with rfl | ht
    · exact hkeep t (hturn.2.2.2 hne)
    · exact hmet t ht (by rw [hturn.1]; exact hne)

namespace BsdInv

variable {n k : ℕ} {s s' : Sched}

theorem mono (h : BsdInv n k s) (hk : k ≤ k') : BsdInv n k' s where
  mlfqs := h.mlfqs
  load := h.load
  nice := h.nice
  low := h.low
  high := h.high
  live t ht hname := by
    have hle := h.live t ht hname
    omega

theorem calcRecentCpu (h : BsdInv n k s) (hn : n ≤ 545) (hk : k ≤ 100) :
    bsdCalcRecentCpuT s = some (bsdCalcRecentCpu s) ∧ BsdInv n 0 (bsdCalcRecentCpu s) := by
  obtain ⟨hm, ha, hd, -, hc0, -, hc⟩ := coef_spec hn h.load.1 h.load.2
  have h100 := h.mono hk
  obtain ⟨hT, hinv⟩ := foldlM_eq_some (I := BsdInv n 100)
    (fun s t hi => recentCpuStep hc0 hc hn hi t) s.allList s h100
  obtain ⟨hname, hall, -, hmet⟩ := recentCpu_walk hc0 hc hn s.allList h100
  have heq : bsdCalcRecentCpu s =
      s.allList.foldl (bsdCalcRecentCpuStep (cpuCoef s.loadAvg)) s := rfl
  rw [heq]
  refine ⟨?_, hinv.mlfqs, hinv.load, hinv.nice, hinv.low, hinv.high, fun t ht hne => ?_⟩
  · unfold bsdCalcRecentCpuT
    simp only [hm, ha, hd, bind_eq_bind, bind_some]
    exact hT
  · rw [hall] at ht
    rw [hname] at hne
    have hle := hmet t ht hne
    omega

theorem calcPriority (h : BsdInv n k s) (hn : n ≤ 545) :
    bsdCalcPriorityT s = some (bsdCalcPriority s) ∧ BsdInv n k (bsdCalcPriority s) := by
  refine ⟨?_, h.same .calcPriority⟩
  obtain ⟨hT, -⟩ := foldlM_eq_some (I := fun sy : Sched × Bool => BsdInv n k sy.1)
    (f := bsdCalcPriorityStepT) (g := bsdCalcPriorityStep) (fun sy t hi => by
      refine ⟨?_, hi.same (SameNumbers.calcPriorityStep sy.2 t)⟩
      unfold bsdCalcPriorityStepT
      split
      · rename_i hidle
        unfold bsdCalcPriorityStep
        dsimp only
        rw [if_pos hidle]
      · rw [priority_spec (hi.fits hn t) (hi.nice t)]
        rfl) s.allList (s, false) h
  unfold bsdCalcPriorityT
  rw [hT]
  rfl

theorem bsdCharge (h : BsdInv n k s) (hn : n ≤ 545) (hk : k < 100)
    (hall : s.running ∈ s.allList) : ∃ s₁,
    (if s.name s.running ≠ "idle" then s.modify s.running fun th =>
      { th with recentCpu := fpAdd th.recentCpu 1 .int } else s) = s₁ ∧
      bsdChargeT s = some s₁ ∧ BsdInv n (k + 1) s₁ ∧ s₁.ticks = s.ticks ∧
      readyThreads s₁ = readyThreads s := by
  refine ⟨_, rfl, ?_⟩
  unfold bsdChargeT
  split
  · rename_i hidle
    obtain ⟨hcharge, h1⟩ := h.charge hn hk hall hidle
    refine ⟨by rw [hcharge]; rfl, h1, rfl, ?_⟩
    unfold readyThreads
    rw [Sched.name_modify _ rfl]
    rfl
  · exact ⟨rfl, h.mono (Nat.le_succ k), rfl, rfl⟩

theorem bsdSecond (h : BsdInv n (k + 1) s) (hn : n ≤ 545) (hk : k < 100)
    (hphase : s.ticks.tmod timerFreq = 0 ↔ k = 99)
    (hr : s.ticks.tmod timerFreq = 0 → readyThreads s ≤ n) : ∃ s₂,
    (if s.ticks.tmod timerFreq = 0 then bsdCalcRecentCpu (bsdCalcLoadAverage s) else s) = s₂ ∧
      bsdSecondT s = some s₂ ∧ BsdInv n (if k = 99 then 0 else k + 1) s₂ := by
  refine ⟨_, rfl, ?_⟩
  unfold bsdSecondT
  by_cases hd : s.ticks.tmod timerFreq = 0
  · obtain ⟨hload, hl⟩ := h.loadAverage hn (hr hd)
    obtain ⟨hcpu, hc⟩ := hl.calcRecentCpu hn hk
    rw [if_pos hd, if_pos hd, if_pos (hphase.mp hd), hload]
    exact ⟨hcpu, hc⟩
  · rw [if_neg hd, if_neg hd, if_neg fun hk => hd (hphase.mpr hk)]
    exact ⟨rfl, h⟩

/-- **`BSD_schedule`**: nothing overflows, and the numbers stay in bounds. -/
theorem bsdSchedule (h : BsdInv n k s) (hn : n ≤ 545) (hk : k < 100)
    (hall : s.running ∈ s.allList) (hphase : s.ticks.tmod timerFreq = 0 ↔ k = 99)
    (hr : s.ticks.tmod timerFreq = 0 → readyThreads s ≤ n) :
    bsdScheduleT s = some (Pintos.bsdSchedule s) ∧
      BsdInv n (if k = 99 then 0 else k + 1) (Pintos.bsdSchedule s) := by
  obtain ⟨s₁, hs1, hT1, h1, hticks, hready⟩ := h.bsdCharge hn hk hall
  obtain ⟨s₂, hs2, hT2, h2⟩ := h1.bsdSecond hn hk (by rw [hticks]; exact hphase)
    (by rw [hticks, hready]; exact hr)
  unfold bsdScheduleT Pintos.bsdSchedule
  rw [hT1, bind_some, hT2, bind_some]
  simp only [hs1, hs2]
  split
  · exact h2.calcPriority hn
  · exact ⟨rfl, h2⟩

end BsdInv

/-! ## 7. Events -/

/-- The ticks since the last second. -/
def phase (s : Sched) : ℕ := (s.ticks % 100).toNat

/-- What `thread_tick` hands to `BSD_schedule`, if a timer interrupt comes now. -/
def tickState (s : Sched) : Sched :=
  let s := { intrEnter s with ticks := s.ticks + 1, threadTicks := s.threadTicks + 1 }
  if timeSlice ≤ s.threadTicks then { s with yieldOnReturn := true } else s

/-- **At each second there are at most `n` threads** that are ready or run, the idle thread not
    counted. -/
def LoadOk (n : ℕ) (s : Sched) : SchedOp → Prop
  | .timerTick _ => (s.ticks + 1).tmod timerFreq = 0 → readyThreads s ≤ n
  | _ => True

/-- **No thread named "idle" creates a thread.** -/
def CreatorOk (s : Sched) : SchedOp → Prop
  | .threadCreate .. | .initThread .. | .threadStart => s.name s.running ≠ "idle"
  | _ => True

theorem bsdSchedule_ticks (s : Sched) : (bsdSchedule s).ticks = s.ticks := by
  have hmod : ∀ (s : Sched) (t : Tid) (f : Thread → Thread), (s.modify t f).ticks = s.ticks :=
    fun _ _ _ => rfl
  have hload : ∀ s : Sched, (bsdCalcLoadAverage s).ticks = s.ticks := fun _ => rfl
  have hcpu : ∀ s : Sched, (bsdCalcRecentCpu s).ticks = s.ticks := by
    intro s
    unfold bsdCalcRecentCpu
    refine foldlRecOn s.allList _ (motive := fun x : Sched => x.ticks = s.ticks) rfl
      fun s₁ h1 t _ => ?_
    unfold bsdCalcRecentCpuStep
    split <;> exact h1
  have hpri : ∀ s : Sched, (bsdCalcPriority s).ticks = s.ticks := fun _ =>
    SameNumbers.calcPriority.ticks
  unfold bsdSchedule
  simp only [apply_ite Sched.ticks, hpri, hcpu, hload, hmod, ite_self]

/-- The invariants between events. -/
structure BsdRun (n : ℕ) (s : Sched) : Prop where
  run : RunInv s
  ticks : 0 ≤ s.ticks
  bsd : BsdInv n (phase s) s

namespace BsdRun

variable {n : ℕ} {s s' : Sched}

section

variable (h : BsdRun n s)

include h

theorem running_mem : s.running ∈ s.allList := h.run.all_mem _ h.run.running_live

theorem tick (hn : n ≤ 545) (hr : (s.ticks + 1).tmod timerFreq = 0 → readyThreads s ≤ n) :
    bsdScheduleT (tickState s) = some (Pintos.bsdSchedule (tickState s)) ∧
      BsdInv n (phase { s with ticks := s.ticks + 1 }) (Pintos.bsdSchedule (tickState s)) := by
  have hticks := h.ticks
  have hsame : ∀ k, BsdInv n k s → BsdInv n k (tickState s) := by
    intro k hk
    unfold tickState
    dsimp only
    split <;> exact ⟨hk.mlfqs, hk.load, hk.nice, hk.low, hk.high, hk.live⟩
  have hfields : (tickState s).ticks = s.ticks + 1 ∧ (tickState s).running = s.running ∧
      (tickState s).allList = s.allList ∧ readyThreads (tickState s) = readyThreads s := by
    unfold tickState
    dsimp only
    split <;> exact ⟨rfl, rfl, rfl, rfl⟩
  obtain ⟨hft, hfr, hfa, hfn⟩ := hfields
  have hmod : (s.ticks + 1).tmod timerFreq = (s.ticks + 1) % 100 :=
    Int.tmod_eq_emod_of_nonneg (by omega)
  have hphase : phase s < 100 := by
    unfold phase
    omega
  have hnext : phase { s with ticks := s.ticks + 1 } = if phase s = 99 then 0 else phase s + 1 := by
    unfold phase
    dsimp only
    split <;> omega
  rw [hnext]
  refine (hsame _ h.bsd).bsdSchedule hn hphase ?_ ?_ ?_
  · rw [hfr, hfa]
    exact h.running_mem
  · rw [hft, hmod]
    unfold phase
    omega
  · rw [hft, hfn]
    exact hr

theorem same (hrun : RunInv s') (hs : SameNumbers s s') : BsdRun n s' := by
  refine ⟨hrun, hs.ticks ▸ h.ticks, ?_⟩
  have hphase : phase s' = phase s := by
    unfold phase
    rw [hs.ticks]
  rw [hphase]
  exact h.bsd.same hs

theorem initThread_numbers (hidle : s.name s.running ≠ "idle") (name : String) (p : Int) :
    (-20 ≤ (initThread s name p).nice ∧ (initThread s name p).nice ≤ 20) ∧
      -cpuBase n ≤ (initThread s name p).recentCpu ∧
      (initThread s name p).recentCpu ≤ cpuBase n + phase s * 16384 := by
  have hbase : 0 ≤ cpuBase n := by
    unfold cpuBase
    omega
  have hzero : fpConvertToFp 0 = 0 := by decide
  unfold initThread
  dsimp only
  split
  · exact ⟨h.bsd.nice _, h.bsd.low _, h.bsd.live _ h.running_mem hidle⟩
  · rw [hzero]
    omega

/-- **A new thread** inherits from a thread that is charged and brought down. -/
theorem addThread (hp : priMin ≤ p ∧ p ≤ priMax) (hidle : s.name s.running ≠ "idle") :
    BsdRun n (Pintos.addThread s name p) := by
  obtain ⟨hnice, hlow, hhigh⟩ := h.initThread_numbers hidle name p
  have hbound := cpuBound_eq n
  have hphase : phase s < 100 := by
    unfold phase
    omega
  have hthr : ∀ u, (Pintos.addThread s name p).thr u =
      if u = s.nextThread then initThread s name p else s.thr u := by
    intro u
    unfold Pintos.addThread
    by_cases e : u = s.nextThread
    · subst e
      simp
    · simp [e]
  refine ⟨addThread_inv h.run name hp, h.ticks, h.bsd.mlfqs, h.bsd.load, fun u => ?_, fun u => ?_,
    fun u => ?_, fun u hu hne => ?_⟩
  · rw [hthr]
    split
    · exact hnice
    · exact h.bsd.nice u
  · rw [hthr]
    split
    · exact hlow
    · exact h.bsd.low u
  · rw [hthr]
    split
    · omega
    · exact h.bsd.high u
  · rw [Sched.name, hthr] at hne
    rw [hthr]
    split
    · exact hhigh
    · rename_i e
      rw [if_neg e] at hne
      rcases mem_append.mp hu with hu | hu
      · exact h.bsd.live u hu hne
      · exact absurd (mem_singleton.mp hu) e

theorem threadCreate {page : Bool} (hidle : s.name s.running ≠ "idle")
    (hs : Pintos.threadCreate s name p page = some s') : BsdRun n s' := by
  have hrun := threadCreate_inv h.run hs
  unfold Pintos.threadCreate at hs
  split at hs
  · cases hs
    exact h
  split at hs
  · rename_i hp
    exact (h.addThread hp hidle).same hrun (.threadUnblock hs)
  · cases hs

theorem threadSetNice (hs : Pintos.threadSetNice s nice = some s') : BsdRun n s' := by
  have hrun := threadSetNice_inv h.run hs
  unfold Pintos.threadSetNice at hs
  split at hs
  · rename_i hrange
    have hthr := s.thr_modify s.running fun th => { th with nice := nice }
    have hname := s.name_modify (t := s.running) (f := fun th => { th with nice := nice }) rfl
    have hrc : ∀ u, ((s.modify s.running fun th => { th with nice := nice }).thr u).recentCpu =
        (s.thr u).recentCpu := by
      intro u
      rw [hthr]
      split
      · rename_i e
        rw [e]
      · rfl
    have h1 : BsdRun n (s.modify s.running fun th => { th with nice := nice }) := by
      refine ⟨h.run.modify rfl rfl rfl, h.ticks, h.bsd.mlfqs, h.bsd.load, fun u => ?_, fun u => ?_,
        fun u => ?_, fun u hu hne => ?_⟩
      · rw [hthr]
        split
        · exact hrange
        · exact h.bsd.nice u
      · rw [hrc]
        exact h.bsd.low u
      · rw [hrc]
        exact h.bsd.high u
      · rw [hrc]
        exact h.bsd.live u hu (by rw [← hname]; exact hne)
    exact h1.same hrun (SameNumbers.yieldIf (.setPriority _ _) hs)
  · cases hs

theorem timerTick (hn : n ≤ 545) {woken : List Tid}
    (hr : (s.ticks + 1).tmod timerFreq = 0 → readyThreads s ≤ n) (hrun : RunInv s')
    (hs : (timerInterrupt (intrEnter s) woken).bind intrExit = some s') : BsdRun n s' := by
  obtain ⟨-, hinv⟩ := h.tick hn hr
  obtain ⟨s₁, ht, he⟩ := bind_eq_some_iff.mp hs
  have hmlfqs : (tickState s).mlfqs = true ∧ (tickState s).ticks = s.ticks + 1 := by
    unfold tickState
    dsimp only
    split <;> exact ⟨h.bsd.mlfqs, rfl⟩
  have htick : SameNumbers (Pintos.bsdSchedule (tickState s))
      (threadTick { intrEnter s with ticks := s.ticks + 1 }) := by
    show SameNumbers _
      (let s₁ :=
        if (tickState s).mlfqs = true then Pintos.bsdSchedule (tickState s) else tickState s
       if s₁.priorAging = true then Pintos.threadAging s₁ else s₁)
    rw [if_pos hmlfqs.1]
    dsimp only
    split
    · exact .threadAging
    · exact .refl _
  have hsame := (htick.trans (.wakes woken ht)).trans (.intrExit he)
  have hticks : s'.ticks = s.ticks + 1 := by
    rw [hsame.ticks, bsdSchedule_ticks, hmlfqs.2]
  refine ⟨hrun, ?_, ?_⟩
  · have h0 := h.ticks
    omega
  · have hphase : phase s' = phase { s with ticks := s.ticks + 1 } := by
      unfold phase
      rw [hticks]
    rw [hphase]
    exact hinv.same hsame

theorem step (hn : n ≤ 545) {op : SchedOp} (hl : LoadOk n s op)
    (hc : CreatorOk s op) (hs : schedStep s op = some s') : BsdRun n s' := by
  have hrun := schedStep_inv op h.run hs
  cases op with
  | intrSetLevel level =>
    cases hs
    exact h.same hrun (.of_eq _ _ rfl rfl rfl rfl rfl)
  | threadStart =>
    simp only [schedStep, threadStart] at hs
    split at hs
    · obtain ⟨s₁, hs1, rfl⟩ := map_eq_some_iff.mp hs
      exact (h.threadCreate hc hs1).same hrun (.of_eq _ _ rfl rfl rfl rfl rfl)
    · cases hs
  | idle =>
    simp only [schedStep, idleEntry] at hs
    split at hs
    · cases hs
      exact h.same hrun (.of_eq _ _ rfl rfl rfl rfl rfl)
    · cases hs
  | threadCreate name p page => exact h.threadCreate hc hs
  | initThread name p =>
    simp only [schedStep] at hs
    split at hs
    · rename_i hp
      cases hs
      exact h.addThread hp hc
    · cases hs
  | threadYield => exact h.same hrun (.threadYield hs)
  | threadBlock =>
    simp only [schedStep, threadBlock] at hs
    split at hs
    · cases hs
    · exact h.same hrun ((SameNumbers.setStatus _ _).trans (.schedule hs))
  | threadUnblock t => exact h.same hrun (.threadUnblock hs)
  | unblockOnly t =>
    obtain ⟨⟨p, s₁⟩, hu, rfl⟩ := map_eq_some_iff.mp hs
    exact h.same hrun (.unblockSection hu)
  | threadExit waiter =>
    simp only [schedStep] at hs
    split at hs
    · cases hs
    · exact h.same hrun (.threadExit hs)
  | threadSetPriority p =>
    simp only [schedStep] at hs
    split at hs
    · exact h.same hrun (SameNumbers.yieldIf (.setPriority _ _) hs)
    · cases hs
  | storePriority p =>
    simp only [schedStep] at hs
    split at hs
    · cases hs
      exact h.same hrun (.setPriority _ _)
    · cases hs
  | threadSetNice nice =>
    simp only [schedStep] at hs
    split at hs
    · exact h.threadSetNice hs
    · cases hs
  | timerTick woken =>
    simp only [schedStep] at hs
    split at hs
    · exact h.timerTick hn hl hrun hs
    · cases hs

end

theorem start (n : ℕ) (priorAging : Bool) : BsdRun n (threadInit true priorAging) := by
  have hbase : 0 ≤ cpuBase n := by
    unfold cpuBase
    omega
  have hbound := cpuBound_eq n
  have hzero : fpConvertToFp 0 = 0 := by decide
  have hthr : ∀ t, ((threadInit true priorAging).thr t).nice = 0 ∧
      ((threadInit true priorAging).thr t).recentCpu = 0 := by
    intro t
    unfold threadInit
    by_cases e : t = 0
    · subst e
      simp [hzero]
    · simp [e, noThread]
  refine ⟨threadInit_inv true priorAging, Int.le_refl 0, rfl, ?_, fun t => ?_, fun t => ?_,
    fun t => ?_, fun t _ _ => ?_⟩
  · show 0 ≤ fpConvertToFp 0 ∧ fpConvertToFp 0 ≤ _
    rw [hzero]
    omega
  · rw [(hthr t).1]
    omega
  · rw [(hthr t).2]
    omega
  · rw [(hthr t).2]
    omega
  · rw [(hthr t).2]
    omega

end BsdRun

/-! ## 8. The result -/

/-- **The numbers are within their bounds**, for a load of at most `n`. -/
structure BsdSound (n : ℕ) (s : Sched) : Prop where
  load : 0 ≤ s.loadAvg ∧ s.loadAvg ≤ n * 2 ^ 14
  divisor : 2 ^ 14 ≤ cpuDivisor s.loadAvg
  coef : 0 ≤ cpuCoef s.loadAvg ∧ cpuCoef s.loadAvg < 2 ^ 14
  recentCpu : ∀ t, |(s.thr t).recentCpu| ≤ 120 * (2 * n + 1) * 2 ^ 14
  bound : (120 * (2 * n + 1) * 2 ^ 14 : Int) < 2 ^ 31
  /-- A timer interrupt that comes now runs `BSD_schedule` without an overflow. -/
  noOverflow : (∀ woken, LoadOk n s (.timerTick woken)) →
    bsdScheduleT (tickState s) = some (bsdSchedule (tickState s))

instance (n : ℕ) (s : Sched) : (op : SchedOp) → Decidable (LoadOk n s op)
  | .timerTick _ => inferInstanceAs (Decidable (_ → _))
  | .intrSetLevel _ | .threadStart | .idle | .threadCreate .. | .initThread .. | .threadYield | .threadBlock
  | .threadUnblock _ | .unblockOnly _ | .threadExit _ | .threadSetPriority _ | .storePriority _
  | .threadSetNice _ => .isTrue trivial

instance (s : Sched) : (op : SchedOp) → Decidable (CreatorOk s op)
  | .threadCreate .. | .initThread .. | .threadStart => inferInstanceAs (Decidable (_ ≠ _))
  | .timerTick _ | .intrSetLevel _ | .idle | .threadYield | .threadBlock
  | .threadUnblock _ | .unblockOnly _ | .threadExit _ | .threadSetPriority _ | .storePriority _
  | .threadSetNice _ => .isTrue trivial

/-- The boot: the idle thread is created, runs its first statements and blocks. -/
def idleBlocks : List SchedOp := [.threadStart, .threadBlock, .idle, .threadUnblock 0, .threadBlock]

/-- Timer interrupts of the thread that runs. -/
def tickOps (n : ℕ) : List SchedOp :=
  (replicate n [.intrSetLevel .on, .timerTick []]).flatten

/-- A thread is created and its creator exits. -/
def startNext (name : String) : List SchedOp :=
  [.intrSetLevel .off, .threadCreate name 31 true, .threadExit none]

/-- **A program named "idle"** hands its `recent_cpu` on: "main" runs for 99 ticks and starts a
    program named "idle", which keeps the value over the second, when nobody else is ready, and
    starts "a" with it; and so twice more. -/
def idleChain : List SchedOp :=
  idleBlocks ++ tickOps 99 ++
    (replicate 3 (startNext "idle" ++ tickOps 1 ++ startNext "a" ++ tickOps 99)).flatten

end Pintos
