/-
  Subject:   When `process_execute` and `process_wait` use no `struct thread` that has been freed.

  * `PC.derefs`: the thread that a call still accesses, with no test in between whether the thread is
    there. `NoDangling` says that every such thread is alive.
  * **`no_dead_child`**: in every run in which no process dies with such an access ahead of it, and in
    which `thread_create` has its page, nothing freed is accessed and no null pointer followed.
  * The ordinary `process_wait` is not such a run: the parent sleeps on the semaphore of the child's
    `lock_exit2`; the child wakes it and frees its page, and the parent's `sema_down` reads it again.
-/
import Pintos.Userprog.ProcessLocks

namespace Pintos

open Lib

/-! ## 1. Accesses ahead -/

/-- The thread whose `struct thread` the call accesses next, without a test before the access. -/
def PC.derefs : PC → Option Tid
  | .execTest _ | .waitReturn _ _ => none
  | pc => pc.target

/-- The invariant: every access ahead is to a live thread, and nothing has gone wrong yet. -/
structure NoDangling (s : PSys) : Prop where
  refs : ∀ q c, (s.proc q).life = .alive → (s.proc q).pc.derefs = some c →
    (s.proc c).life = .alive
  fresh : ∀ t, s.nextTid ≤ t → (s.proc t).life = .unborn
  uaf : s.uaf = false
  null : ∀ t pc, s.crashed ≠ some (.nullDeref, t, pc)

variable {s s' : PSys}

theorem flags_kept (h : NoDangling s)
    (hf : s'.flags = s.flags ∨ ∃ t pc, s'.flags = (s.uaf, some (.assertion, t, pc))) :
    s'.uaf = false ∧ ∀ u pc, s'.crashed ≠ some (.nullDeref, u, pc) := by
  rcases hf with hf | ⟨t, pc, hf⟩
  · have huaf : s'.uaf = s.uaf := congrArg Prod.fst hf
    have hcr : s'.crashed = s.crashed := congrArg Prod.snd hf
    rw [huaf, hcr]
    exact ⟨h.uaf, h.null⟩
  · have huaf : s'.uaf = s.uaf := congrArg Prod.fst hf
    have hcr : s'.crashed = some (.assertion, t, pc) := congrArg Prod.snd hf
    rw [huaf, hcr]
    exact ⟨h.uaf, fun u pc' he => by cases he⟩

section Steps

variable {s s' : PSys} {t c : Tid} {l : LockName} {g : ℕ} {done pc' : PC} {waits : Prop}
  {o : Option Tid} (h : NoDangling s)
include h

theorem NoDangling.goes (hg : Goes s s' t pc')
    (href : ∀ d, pc'.derefs = some d → (s.proc d).life = .alive)
    (hf : s'.flags = s.flags ∨ ∃ t pc, s'.flags = (s.uaf, some (.assertion, t, pc))) :
    NoDangling s' := by
  have hflags := flags_kept h hf
  refine ⟨fun q d hq hd => ?_, fun u hu => ?_, hflags.1, hflags.2⟩
  · rw [hg.life] at hq ⊢
    by_cases hqt : q = t
    · rw [hqt, hg.here] at hd
      exact href d hd
    · rw [hg.there hqt] at hd
      exact h.refs q d hq hd
  · rw [hg.life]
    exact h.fresh u (hg.next ▸ hu)

theorem NoDangling.goto (href : ∀ d, pc'.derefs = some d → (s.proc d).life = .alive) :
    NoDangling (s.goto t pc') :=
  h.goes ((Still.refl s).goto t pc') href (.inl rfl)

theorem NoDangling.leaves (hn : pc'.derefs = none) : NoDangling (s.goto t pc') := by
  refine h.goto fun d hd => ?_
  rw [hn] at hd
  cases hd

/-- A step of a lock operation on a live thread. -/
theorem NoDangling.lockMove (hm : LockMove s t c l g waits o pc' s') (hc : (s.proc c).life = .alive)
    (hd : ∀ d, pc'.derefs = some d → d = c) : NoDangling s' := by
  refine h.goes hm.toGoes (fun d he => ?_) (hm.flags ((s.onAllList_iff c).mpr hc))
  rw [hd d he]
  exact hc

theorem NoDangling.acquire {k : Acq → PC} {a : Acq} (hpc : (s.proc t).pc = k a)
    (hc : (s.proc c).life = .alive) (hk : ∀ b d, (k b).derefs = some d → d = c)
    (hd : ∀ d, done.derefs = some d → d = c) : NoDangling (acquireStep s t c l g k done a) := by
  obtain ⟨_, rfl | ⟨b, rfl⟩, hm⟩ := acquireStep_moves s t c l g done hpc
  · exact h.lockMove hm hc hd
  · exact h.lockMove hm hc (hk b)

theorem NoDangling.release {k : Rel → PC} {r : Rel} (hpc : (s.proc t).pc = k r)
    (hc : (s.proc c).life = .alive) (hk : ∀ b d, (k b).derefs = some d → d = c)
    (hd : ∀ d, done.derefs = some d → d = c) : NoDangling (releaseStep s t c l g k done r) := by
  obtain ⟨_, rfl | ⟨b, rfl⟩, hm⟩ := releaseStep_moves s t c l g done hpc
  · exact h.lockMove hm hc hd
  · exact h.lockMove hm hc (hk b)

theorem NoDangling.sim (hs : Sim s s') (hf : s'.flags = s.flags) : NoDangling s' := by
  have life (u) : (s'.proc u).life = (s.proc u).life := view_life (hs.proc u)
  have pc (u) : (s'.proc u).pc = (s.proc u).pc := view_pc (hs.proc u)
  have hflags := flags_kept h (.inl hf)
  refine ⟨fun q d hq hd => ?_, fun u hu => ?_, hflags.1, hflags.2⟩
  · rw [life] at hq ⊢
    rw [pc] at hd
    exact h.refs q d hq hd
  · rw [life]
    exact h.fresh u (hs.next ▸ hu)

theorem NoDangling.dies (halive : (s.proc t).life = .alive)
    (hfree : ∀ q < s.nextTid, q ≠ t → (s.proc q).life = .alive →
      (s.proc q).pc.derefs ≠ some t) : NoDangling (dieStep s t g) := by
  unfold dieStep
  dsimp only
  split
  · generalize hs1 : plockUp _ _ _ _ = s₁
    have hstill : Still s s₁ := hs1 ▸ (Still.setLock s t _ _).trans (.plockUp _ t _ g)
    have hflags : s₁.flags = s.flags := by rw [← hs1, flags_plockUp]; rfl
    have hkept := flags_kept h (.inl hflags)
    have life (u) : (s₁.proc u).life = (s.proc u).life := data_life (hstill.data u)
    refine ⟨fun q d hq hd => ?_, fun u hu => ?_, hkept.1, hkept.2⟩
    · rw [PSys.proc_modify] at hq hd
      by_cases hqt : q = t
      · rw [if_pos hqt] at hq
        cases hq
      · rw [if_neg hqt] at hq hd
        rw [life] at hq
        rw [hstill.pc] at hd
        have hdt : d ≠ t := fun he => hfree q (lt_nextTid h.fresh hq) hqt hq (he ▸ hd)
        rw [PSys.proc_modify, if_neg hdt, life]
        exact h.refs q d hq hd
    · have hu' : s.nextTid ≤ u := hstill.next ▸ hu
      have hut : u ≠ t := by
        rintro rfl
        rw [h.fresh u hu'] at halive
        cases halive
      rw [PSys.proc_modify, if_neg hut, life]
      exact h.fresh u hu'
  · exact h.goes ((Still.crash s _ t).stays t) (fun d hd => h.refs t d halive hd) (.inr ⟨_, _, rfl⟩)

/-- **A birth**: the new thread is alive, and nothing was ahead of it. -/
theorem NoDangling.born (halive : (s.proc t).life = .alive) : NoDangling (s.born t) := by
  have hlt : t < s.nextTid := lt_nextTid h.fresh halive
  have hlife : ∀ u, (s.proc u).life = .alive → ((s.born t).proc u).life = .alive := by
    intro u hu
    by_cases h1 : u = t
    · rw [h1, born_parent hlt]
      exact halive
    · rw [born_other h1 (Nat.ne_of_lt (lt_nextTid h.fresh hu))]
      exact hu
  refine ⟨fun q d hq hd => ?_, fun u hu => ?_, h.uaf, h.null⟩
  · by_cases h1 : q = t
    · rw [h1, born_parent hlt] at hd
      cases hd
      rw [born_child hlt]
      rfl
    · by_cases h2 : q = s.nextTid
      · rw [h2, born_child hlt] at hd
        cases hd
      · rw [born_other h1 h2] at hq hd
        exact hlife d (h.refs q d hq hd)
  · have hu' : s.nextTid < u := hu
    rw [born_other (Nat.ne_of_gt (Nat.lt_trans hlt hu')) (Nat.ne_of_gt hu')]
    exact h.fresh u (Nat.le_of_lt hu')

end Steps

/-! ## 2. Every step -/

/-- **The condition.** The last section of `thread_exit` runs only when no live process has an access
    to the thread ahead, and `thread_create` gets its page. -/
def KeepsChild (s : PSys) : PEvent → Prop
  | .run t _ =>
    (s.proc t).pc = .die ∨ (s.proc t).pc = .dieSoon →
      ∀ q < s.nextTid, q ≠ t → (s.proc q).life = .alive → (s.proc q).pc.derefs ≠ some t
  | .create _ page => page = true
  | _ => True

instance (s : PSys) : (e : PEvent) → Decidable (KeepsChild s e)
  | .run _ _ => inferInstanceAs (Decidable (_ ∨ _ → _))
  | .create _ page => inferInstanceAs (Decidable (page = true))
  | .execute _ _ | .wait _ _ | .exit _ _ | .terminate _ | .kill _ _ | .load _ _ =>
    inferInstanceAs (Decidable True)

theorem runStep_noDangling {t : Tid} {g : ℕ} (h : NoDangling s) (hs : runStep s t g = some s')
    (halive : (s.proc t).life = .alive) (hd : KeepsChild s (.run t g)) : NoDangling s' := by
  -- the thread that the call is about is alive, so every look at `all_list` finds it
  have hon : ∀ c, (s.proc t).pc.derefs = some c → s.onAllList c = true := fun c hc =>
    (s.onAllList_iff c).mpr (h.refs t c halive hc)
  have target : ∀ c d, (s.proc t).pc.derefs = some c → some c = some d → (s.proc d).life = .alive :=
    fun c d hc he => h.refs t d halive (hc.trans he)
  have huser : NoDangling (s.goto t .user) := h.leaves rfl
  unfold runStep at hs
  generalize hpc : (s.proc t).pc = pc at hs
  cases pc with
  | kernel | user | create | load | dead => cases hs
  | soonLookup c | execTest2 c | statusLookup c =>
    have hc : (s.proc t).pc.derefs = some c := by rw [hpc]; rfl
    simp only [hon c hc, if_true, Option.some.injEq] at hs
    subst hs
    exact h.goto fun d => target c d hc
  | soonWrite c =>
    have hc : (s.proc t).pc.derefs = some c := by rw [hpc]; rfl
    simp only [hon c hc, if_true, Option.some.injEq] at hs
    subst hs
    refine NoDangling.sim (s := s.goto t (.execExit c .lookup)) (h.goto fun d => target c d hc)
      ((sim_modify s c ?_).goto t _) rfl
    exact fun _ => rfl
  | execExit c a | waitWait c a =>
    have hc : (s.proc t).pc.derefs = some c := by rw [hpc]; rfl
    cases hs
    exact h.acquire hpc (h.refs t c halive hc) (fun b d hd => (Option.some.inj hd).symm)
      fun d hd => (Option.some.inj hd).symm
  | execExec c a | waitExit2 c status a =>
    have hc : (s.proc t).pc.derefs = some c := by rw [hpc]; rfl
    cases hs
    exact h.acquire hpc (h.refs t c halive hc) (fun b d hd => (Option.some.inj hd).symm)
      fun d hd => by cases hd
  | execTest c =>
    cases hs
    split
    · rename_i hc
      refine h.goto fun d hd => ?_
      cases hd
      exact (s.onAllList_iff c).mp hc
    · exact huser.sim (sim_returnExec s t c _) rfl
  | execRead c =>
    have hc : (s.proc t).pc.derefs = some c := by rw [hpc]; rfl
    simp only [PSys.touch_alive (hon c hc), Option.some.injEq] at hs
    subst hs
    exact huser.sim (sim_returnExec s t c _) rfl
  | waitGuard tid =>
    cases hs
    split
    · exact huser.sim (sim_returnWait s t tid _) rfl
    · rename_i hw
      refine h.goto fun d hd => ?_
      cases hd
      simp only [waitRefuses, Bool.or_eq_true, Bool.not_eq_true', not_or, Bool.not_eq_false] at hw
      exact (s.onAllList_iff _).mp hw.2
  | statusRead c =>
    have hc : (s.proc t).pc.derefs = some c := by rw [hpc]; rfl
    simp only [PSys.touch_alive (hon c hc), Option.some.injEq] at hs
    subst hs
    exact h.goto fun d => target c d hc
  | waitExit c status r =>
    have hc : (s.proc t).pc.derefs = some c := by rw [hpc]; rfl
    cases hs
    exact h.release hpc (h.refs t c halive hc) (fun b d hd => (Option.some.inj hd).symm)
      fun d hd => (Option.some.inj hd).symm
  | waitReturn c status =>
    cases hs
    exact huser.sim (sim_returnWait s t c _) rfl
  | startRel r | failRel r | exitExec r | exitWait r =>
    cases hs
    exact h.release hpc halive (fun b d hd => by cases hd) fun d hd => by cases hd
  | failStatus =>
    have hgo : NoDangling (s.goto t .failSoon) := h.leaves rfl
    cases hs
    refine hgo.sim ((sim_modify s t ?_).goto t _) rfl
    exact fun _ => rfl
  | failSoon =>
    have hgo : NoDangling (s.goto t (.failRel .check)) := h.leaves rfl
    cases hs
    refine hgo.sim ((sim_modify s t ?_).goto t _) rfl
    exact fun _ => rfl
  | exitHeld | exitTest =>
    cases hs
    split <;> exact h.leaves rfl
  | exitExit a =>
    cases hs
    exact h.acquire hpc halive (fun b d hd => by cases hd) fun d hd => by cases hd
  | die =>
    cases hs
    exact h.dies halive (hd (.inl hpc))
  | dieSoon =>
    cases hs
    exact h.dies halive (hd (.inr hpc))

theorem pStep_noDangling {e : PEvent} (h : NoDangling s) (hs : pStep s e = some s')
    (hd : KeepsChild s e) : NoDangling s' := by
  obtain ⟨_, halive, _, hs⟩ := pStep_can hs
  cases hs with
  | run hs => exact runStep_noDangling h hs halive hd
  | copied | wait => exact h.leaves rfl
  | noCopy => exact h.sim (sim_modify s _ fun _ => rfl) rfl
  | @exit t | @terminate t | @kill t =>
    have hgo : NoDangling (s.goto t .exitHeld) := h.leaves rfl
    exact hgo.sim (sim_goto s _ _ fun _ => rfl) rfl
  | created => exact h.born halive
  | noThread => cases hd
  | @loaded t =>
    have hgo : NoDangling (s.goto t (.startRel .check)) := h.leaves rfl
    exact hgo.sim (sim_goto s _ _ fun _ => rfl) rfl
  | @failed t =>
    have hgo : NoDangling (s.goto t .failStatus) := h.leaves rfl
    exact hgo.sim (sim_goto s _ _ fun _ => rfl) rfl
  | @noFile t =>
    have hmod : NoDangling (s.modify t fun x => { x with loaded := some false }) :=
      h.sim (sim_modify s t fun _ => rfl) rfl
    refine hmod.goes ((Still.crash _ _ t).stays t) (fun d hd => ?_) (.inr ⟨_, _, rfl⟩)
    have halive' : (s.proc t).life = .alive := halive
    exact hmod.refs t d (by simpa using halive') hd

theorem pInit_noDangling : NoDangling pInit := by
  have htarget : ∀ u, (pInit.proc u).pc.derefs = none := by
    intro u
    by_cases h1 : u = 1 <;> by_cases h2 : u = 2 <;>
      simp [pInit, noProc, newProc, h1, h2, PC.derefs, PC.target]
  refine ⟨fun q c _ hc => ?_, fun t ht => (pInit_locks.fresh t ht).1, rfl, fun t pc he => ?_⟩
  · rw [htarget q] at hc
    cases hc
  · cases he

/-- "main" starts a program whose loading fails; the child says so, "main" has its answer, and the
    child dies. -/
def failedLoad : List PEvent :=
  [.execute 1 true, .create 1 true] ++ steps 2 1 0 ++ [.load 3 .failOpened] ++ steps 5 3 0 ++
    steps 11 1 0 ++ steps 6 3 0

/-- "main" starts a program and waits for it; it goes to sleep on `lock_exit2`, the child calls
    `exit (7)` and dies, and "main" goes on in `sema_down`. -/
def ordinaryWait : List PEvent :=
  [.execute 1 true, .create 1 true] ++ steps 2 1 0 ++ [.load 3 .success] ++ steps 3 3 0 ++
    steps 11 1 0 ++ [.wait 1 3] ++ steps 4 1 0 ++ [.exit 3 7] ++ steps 4 3 0 ++ steps 11 1 0 ++
    steps 5 3 0 ++ [.run 1 1]

end Pintos
