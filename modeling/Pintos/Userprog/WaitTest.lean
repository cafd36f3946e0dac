/-
  Subject:   Which tids `process_wait` turns away.

  * `ReturnsAtOnce`: run with no other thread in between, the call returns -1 with nobody blocked, no
    lock changed and no assertion failed.
  * **`wait_at_once_iff`**: it does so exactly when its test refuses, that is when no live thread has
    the tid. The test does not ask whose child the thread is: past it, the call takes the thread's
    `lock_wait`, fails its assertion, or blocks (`Waiting`).
-/
import Pintos.Userprog.LockProtocol

namespace Pintos

open Lib

/-- `process_wait (tid)` by `p` returns -1 before another thread runs, and changes nothing. -/
def ReturnsAtOnce (s : PSys) (p : Tid) (tid : Int) : Prop :=
  ∃ (gs : List ℕ) (s' : PSys),
    runList pStep s (.wait p tid :: gs.map (PEvent.run p)) = some s' ∧
    (s'.proc p).pc = .user ∧ (s'.proc p).eax = -1 ∧ s'.crashed = none ∧
    ∀ u, (s'.proc u).lock = (s.proc u).lock ∧ (s'.proc u).blockedOn = (s.proc u).blockedOn

/-- `p` created the thread with `process_execute` and has not waited for it yet. -/
def Owed (s : PSys) (p : Tid) (tid : Int) : Prop :=
  0 ≤ tid ∧ (s.proc tid.toNat).parent = some p ∧ (s.proc tid.toNat).waitResult = none

/-- No live thread has the tid. -/
def NoSuchThread (s : PSys) (tid : Int) : Prop :=
  tid < 0 ∨ (s.nextTid : Int) ≤ tid ∨ (s.proc tid.toNat).life ≠ .alive

/-- A process in user code. -/
structure Calls (s : PSys) (p : Tid) : Prop where
  running : s.crashed = none
  alive : (s.proc p).life = .alive
  ready : (s.proc p).blockedOn = none
  user : (s.proc p).pc = .user

variable {s s' : PSys} {p t : Tid}

theorem pStep_run {g : ℕ} (h : pStep s (.run t g) = some s') : runStep s t g = some s' := by
  unfold pStep at h
  split at h
  · exact h
  · cases h

/-! ## 1. The test refuses -/

theorem waitRefuses_iff (s : PSys) (tid : Int) : waitRefuses s tid = true ↔ NoSuchThread s tid := by
  simp only [waitRefuses, NoSuchThread, tidError, PSys.onAllList, Bool.or_eq_true, beq_iff_eq,
    decide_eq_true_eq, Bool.not_eq_true', decide_eq_false_iff_not]
  constructor
  · rintro (((h | h) | h) | h)
    · exact .inl (by omega)
    · exact .inr (.inl (by omega))
    · exact .inl (by omega)
    · exact .inr (.inr h)
  · rintro (h | h | h)
    · exact .inl (.inr (by omega))
    · exact .inl (.inl (.inr (by omega)))
    · exact .inr h

theorem waitRefuses_goto (s : PSys) (t : Tid) (pc : PC) (tid : Int) :
    waitRefuses (s.goto t pc) tid = waitRefuses s tid := by
  have hlife : ((s.goto t pc).proc tid.toNat).life = (s.proc tid.toNat).life :=
    ((Still.refl s).goto t pc).life _
  simp only [waitRefuses, PSys.onAllList, hlife]
  rfl

variable {tid : Int}

theorem wait_begins (h : Calls s p) : pStep s (.wait p tid) = some (s.goto p (.waitGuard tid)) := by
  simp [pStep, pEvent, PEvent.thread, h.running, h.alive, h.ready, h.user]

theorem returns_of_refuses (h : Calls s p) (hr : waitRefuses s tid = true) :
    ReturnsAtOnce s p tid := by
  have hrun : pStep (s.goto p (.waitGuard tid)) (.run p 0) =
      some (returnWait (s.goto p (.waitGuard tid)) p tid (-1)) := by
    have hp : (s.goto p (.waitGuard tid)).proc p = { s.proc p with pc := .waitGuard tid } := by
      simp [PSys.goto]
    have hcr : (s.goto p (.waitGuard tid)).crashed = none := h.running
    simp [pStep, pEvent, PEvent.thread, runStep, hp, hcr, h.alive, h.ready, waitRefuses_goto, hr]
  refine ⟨[0], returnWait (s.goto p (.waitGuard tid)) p tid (-1), ?_, ?_, ?_, h.running, ?_⟩
  · simp only [List.map_cons, List.map_nil, runList, wait_begins h, Option.bind_some, hrun]
  · simp [returnWait]
  · simp [returnWait]
  · intro u
    refine ⟨?_, ?_⟩
    · rw [returnWait_field Proc.lock _ _ _ _ (fun _ _ => rfl) fun _ => rfl, PSys.goto]
      refine modify_field Proc.lock s p ?_ u
      exact fun _ => rfl
    · rw [returnWait_field Proc.blockedOn _ _ _ _ (fun _ _ => rfl) fun _ => rfl, PSys.goto]
      refine modify_field Proc.blockedOn s p ?_ u
      exact fun _ => rfl

/-! ## 2. The test lets the call through -/

/-- In the call for `c` with its `lock_wait` taken, or back in user code. -/
def PC.PastWait (c : Tid) (pc : PC) : Prop :=
  pc = .user ∨ (pc.target = some c ∧ pc.takeWait ≠ .notYet)

/-- The caller is in `process_wait` for the live thread `c`, whose `lock_wait` had the value `v`: it
    does not have that lock yet, or the value is smaller now. -/
inductive Waiting (p c : Tid) (v : ℕ) (s : PSys) : Prop where
  | before (a : Acq) (ha : a ≠ .hold) (hpc : (s.proc p).pc = .waitWait c a)
      (alive : (s.proc c).life = .alive) (value : ((s.proc c).lock .wait).value = v)
  | past (hpc : (s.proc p).pc.PastWait c) (alive : (s.proc c).life = .alive)
      (value : ((s.proc c).lock .wait).value < v)

section Through

variable {s s' : PSys} {p c : Tid} {v g : ℕ}

theorem waiting_before {a : Acq} (ha : a ≠ .hold) (hpc : (s.proc p).pc = .waitWait c a)
    (halive : (s.proc c).life = .alive) (hv : ((s.proc c).lock .wait).value = v) :
    Waiting p c v (acquireStep s p c .wait g (.waitWait c) (.statusLookup c) a) := by
  have hon : s.onAllList c = true := (s.onAllList_iff c).mpr halive
  have move : ∀ b, b ≠ .hold → Waiting p c v (s.goto p (.waitWait c b)) := by
    intro b hb
    have hg := (Still.refl s).goto p (.waitWait c b)
    exact .before b hb hg.here ((hg.life c).trans halive) (by rw [goto_lock, hv])
  cases a with
  | lookup =>
    rw [acquireStep, if_pos hon]
    exact move .check (by simp)
  | check =>
    simp only [acquireStep, hon, if_true, PSys.touch_alive hon]
    split
    · exact .before .check (by simp) hpc halive hv
    · exact move .down (by simp)
  | down =>
    simp only [acquireStep, if_pos hon]
    split
    · have hs := (Still.setLock s c .wait { (s.proc c).lock .wait with
        waiters := ((s.proc c).lock .wait).waiters ++ [p] }).trans (.block _ p c .wait)
      refine .before .down (by simp) ((hs.pc p).trans hpc) ((data_life (hs.data c)).trans halive) ?_
      rw [block_lock]
      simpa [PSys.setLock] using hv
    · rename_i hne
      have hg := (Still.setLock s c .wait { (s.proc c).lock .wait with
        value := ((s.proc c).lock .wait).value - 1 }).goto p (.waitWait c .hold)
      have hp : (PC.waitWait c .hold).PastWait c := .inr ⟨rfl, by simp [PC.takeWait, Acq.stage]⟩
      refine .past (by rw [hg.here]; exact hp) ((hg.life c).trans halive) ?_
      rw [goto_lock]
      simp only [PSys.setLock, PSys.proc_modify, if_true, Function.update_self]
      omega
  | hold => exact absurd rfl ha

theorem Waiting.rest {pc' : PC} (hg : Goes s s' p pc') (hpc : pc'.PastWait c)
    (hl : ((s'.proc c).lock .wait).value = ((s.proc c).lock .wait).value)
    (halive : (s.proc c).life = .alive) (hv : ((s.proc c).lock .wait).value < v) :
    Waiting p c v s' :=
  .past (hg.here ▸ hpc) ((hg.life c).trans halive) (hl ▸ hv)

theorem waiting_past (hpc : (s.proc p).pc.PastWait c) (halive : (s.proc c).life = .alive)
    (hv : ((s.proc c).lock .wait).value < v) (hs : runStep s p g = some s') : Waiting p c v s' := by
  have hon : s.onAllList c = true := (s.onAllList_iff c).mpr halive
  have move : ∀ pc' : PC, pc'.PastWait c → Waiting p c v (s.goto p pc') := fun pc' hpc' =>
    .rest ((Still.refl s).goto p pc') hpc' (by rw [goto_lock]) halive hv
  rcases hpc with hpc | ⟨ht, hw⟩
  · simp [runStep, hpc] at hs
  unfold runStep at hs
  cases hpc : (s.proc p).pc with
  | waitWait d a =>
    rw [hpc] at ht hw
    cases ht
    cases a with
    | lookup | check | down => exact absurd rfl hw
    | hold =>
      simp only [hpc, acquireStep, hon, if_true, Option.some.injEq] at hs
      subst hs
      have hg := (Still.setLock s c .wait { (s.proc c).lock .wait with holder := some p }).goto p
        (.statusLookup c)
      refine .rest hg (.inr ⟨rfl, by simp [PC.takeWait]⟩) ?_ halive hv
      rw [goto_lock]
      simp [PSys.setLock]
  | statusLookup d =>
    rw [hpc] at ht
    cases ht
    simp only [hpc, hon, if_true, Option.some.injEq] at hs
    exact hs ▸ move _ (.inr ⟨rfl, by simp [PC.takeWait]⟩)
  | statusRead d =>
    rw [hpc] at ht
    cases ht
    simp only [hpc, PSys.touch_alive hon, Option.some.injEq] at hs
    exact hs ▸ move _ (.inr ⟨rfl, by simp [PC.takeWait]⟩)
  | waitExit d status r =>
    rw [hpc] at ht
    cases ht
    simp only [hpc, Option.some.injEq] at hs
    subst hs
    obtain ⟨pc', hpc', hm⟩ := releaseStep_moves s p c .exit g (.waitExit2 c status .lookup) hpc
    refine .rest hm.toGoes ?_ (by rw [hm.lock (by simp)]) halive hv
    rcases hpc' with rfl | ⟨b, rfl⟩ <;> exact .inr ⟨rfl, by simp [PC.takeWait]⟩
  | waitExit2 d status a =>
    rw [hpc] at ht
    cases ht
    simp only [hpc, Option.some.injEq] at hs
    subst hs
    obtain ⟨pc', hpc', hm⟩ := acquireStep_moves s p c .exit2 g (.waitReturn c status) hpc
    refine .rest hm.toGoes ?_ (by rw [hm.lock (by simp)]) halive hv
    rcases hpc' with rfl | ⟨b, rfl⟩ <;> exact .inr ⟨rfl, by simp [PC.takeWait]⟩
  | waitReturn d status =>
    rw [hpc] at ht
    cases ht
    simp only [hpc, Option.some.injEq] at hs
    subst hs
    refine .past (.inl (by simp [returnWait])) ?_ ?_
    · rw [returnWait_field Proc.life _ _ _ _ (fun _ _ => rfl) fun _ => rfl]
      exact halive
    · rw [returnWait_field Proc.lock _ _ _ _ (fun _ _ => rfl) fun _ => rfl]
      exact hv
  | _ =>
    rw [hpc] at hw
    exact absurd rfl hw

theorem waiting_step (h : Waiting p c v s) (hs : runStep s p g = some s') : Waiting p c v s' := by
  cases h with
  | before a ha hpc alive value =>
    simp only [runStep, hpc, Option.some.injEq] at hs
    exact hs ▸ waiting_before ha hpc alive value
  | past hpc alive value => exact waiting_past hpc alive value hs

theorem waiting_run {gs : List ℕ} (h : Waiting p c v s)
    (hs : runList pStep s (gs.map (PEvent.run p)) = some s') : Waiting p c v s' := by
  induction gs generalizing s with
  | nil =>
    cases hs
    exact h
  | cons g gs ih =>
    obtain ⟨s₁, hstep, hrest⟩ := Option.bind_eq_some_iff.mp hs
    exact ih (waiting_step h (pStep_run hstep)) hrest

end Through

/-- Past its test the call does not return with all locks as they were. -/
theorem refuses_of_returns (h : Calls s p) (hr : ReturnsAtOnce s p tid) :
    waitRefuses s tid = true := by
  obtain ⟨gs, s', hrun, huser, _, _, hsame⟩ := hr
  by_contra hno
  rw [runList, wait_begins h, Option.bind_some] at hrun
  have hgoes := (Still.refl s).goto p (.waitGuard tid)
  cases gs with
  | nil =>
    cases hrun
    rw [hgoes.here] at huser
    cases huser
  | cons g gs =>
    obtain ⟨s₁, hstep, hrest⟩ := Option.bind_eq_some_iff.mp hrun
    have hstep' := pStep_run hstep
    simp only [runStep, hgoes.here, waitRefuses_goto, hno, Option.some.injEq] at hstep'
    subst hstep'
    have hmove := (Still.refl (s.goto p (.waitGuard tid))).goto p (.waitWait tid.toNat .lookup)
    have halive : (s.proc tid.toNat).life = .alive := by
      simp only [waitRefuses, Bool.or_eq_true, Bool.not_eq_true', not_or, Bool.not_eq_false] at hno
      exact (s.onAllList_iff _).mp hno.2
    have hw : Waiting p tid.toNat ((s.proc tid.toNat).lock .wait).value
        ((s.goto p (.waitGuard tid)).goto p (.waitWait tid.toNat .lookup)) :=
      .before .lookup (by simp) hmove.here (by rw [hmove.life, hgoes.life, halive])
        (by rw [goto_lock, goto_lock])
    cases waiting_run hw hrest with
    | before a ha hpc alive value =>
      rw [huser] at hpc
      cases hpc
    | past hpc alive value =>
      rw [(hsame tid.toNat).1] at value
      exact absurd value (Nat.lt_irrefl _)

/-! ## 3. The test decides -/

/-- **`process_wait` on arbitrary tids**: unless it is owed a status for the tid, a process gets -1
    at once exactly when no live thread has the tid. -/
theorem wait_at_once_iff {s : PSys} {p : Tid} {tid : Int} (h : Calls s p) :
    (¬Owed s p tid → ReturnsAtOnce s p tid) ↔ (Owed s p tid ∨ NoSuchThread s tid) := by
  rw [← waitRefuses_iff]
  constructor
  · intro hclaim
    by_cases ho : Owed s p tid
    · exact .inl ho
    · exact .inr (refuses_of_returns h (hclaim ho))
  · rintro (ho | hr) hno
    · exact absurd ho hno
    · exact returns_of_refuses h hr

/-- A second wait for a child that has exited. -/
theorem wait_at_once_again : ∃ s, Reach pStep always pInit s ∧ Calls s 1 ∧
    (s.proc 3).parent = some 1 ∧ (s.proc 3).waitResult = some 7 ∧ ¬Owed s 1 3 ∧
    ReturnsAtOnce s 1 3 := by
  have hrun : (runList pStep pInit (waitedFor (.exit 3 7))).map (fun s =>
      decide ((s.crashed = none ∧ (s.proc 1).life = .alive ∧ (s.proc 1).blockedOn = none ∧
        (s.proc 1).pc = .user) ∧ (s.proc 3).parent = some 1 ∧ (s.proc 3).waitResult = some 7 ∧
        (s.proc 3).life ≠ .alive)) = some true := by
    decide
  obtain ⟨s, hs, hd⟩ := Option.map_eq_some_iff.mp hrun
  obtain ⟨⟨h1, h2, h3, h4⟩, hparent, hwaited, hdead⟩ := of_decide_eq_true hd
  have hc : Calls s 1 := ⟨h1, h2, h3, h4⟩
  have ho : ¬Owed s 1 3 := fun ho => by
    have hnone := ho.2.2.symm.trans hwaited
    cases hnone
  exact ⟨s, reach_runList _ (fun _ _ _ => trivial) hs, hc, hparent, hwaited, ho,
    (wait_at_once_iff hc).mpr (.inr (.inr (.inr hdead))) ho⟩

/-- "main" has started a program, which is in user code. -/
def startedChild : List PEvent :=
  [.execute 1 true, .create 1 true, .load 3 .success] ++ steps 3 3 0

/-- **A process that waits for itself** fails the assertion of `lock_acquire`: it has held its own
    `lock_wait` since it was created. -/
theorem wait_own_tid : ∃ s, Reach pStep always pInit s ∧ Calls s 3 ∧ ¬Owed s 3 3 ∧
    ¬ReturnsAtOnce s 3 3 ∧
    (runList pStep s [.wait 3 3, .run 3 0, .run 3 0, .run 3 0]).map PSys.crashed =
      some (some (.assertion, 3, .waitWait 3 .check)) := by
  have hrun : (runList pStep pInit startedChild).map (fun s =>
      decide ((s.crashed = none ∧ (s.proc 3).life = .alive ∧ (s.proc 3).blockedOn = none ∧
        (s.proc 3).pc = .user) ∧ (s.proc 3).parent ≠ some 3 ∧ waitRefuses s 3 = false ∧
        (runList pStep s [.wait 3 3, .run 3 0, .run 3 0, .run 3 0]).map PSys.crashed =
          some (some (.assertion, 3, .waitWait 3 .check)))) = some true := by
    decide
  obtain ⟨s, hs, hd⟩ := Option.map_eq_some_iff.mp hrun
  obtain ⟨⟨h1, h2, h3, h4⟩, hparent, hlets, hcrash⟩ := of_decide_eq_true hd
  have hc : Calls s 3 := ⟨h1, h2, h3, h4⟩
  refine ⟨s, reach_runList startedChild (fun _ _ _ => trivial) hs, hc, fun ho => hparent ho.2.1,
    fun hr => ?_, hcrash⟩
  rw [refuses_of_returns hc hr] at hlets
  cases hlets

end Pintos
