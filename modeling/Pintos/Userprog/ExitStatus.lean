/-
  Subject:   `process_execute` answers how the load went, and `process_wait` delivers the status.

  In runs that keep to the conditions of `Delivers`, only `process_wait` can stop the machine, and
  `process_execute` is never stuck: either the caller can take its next step, or it waits for `lock_exec`
  and the child can take one of the steps that lead to its release.
-/
import Pintos.Userprog.ChildStory

namespace Pintos

open Lib

/-! ## 1. What stops the machine -/

/-- In `process_wait`, past its test. -/
def PC.waits : PC → Bool
  | .waitWait _ _ | .statusLookup _ | .statusRead _ | .waitExit _ _ _ | .waitExit2 _ _ _
  | .waitReturn _ _ => true
  | _ => false

section Holders

variable {s : PSys} {t p c : Tid} (hl : Locks s) (ha : (s.proc c).life = .alive)
  (hp : (s.proc c).parent = some p)
include hl ha hp

theorem own_exec (h : (s.proc c).pc.relExec = .held) : ((s.proc c).lock .exec).holder = some c := by
  have he := (hl.pairs c p ha hp).exec
  rw [h] at he
  exact handOver_owner he

theorem own_wait (h : (s.proc c).pc.relWait = .held) : ((s.proc c).lock .wait).holder = some c := by
  have he := (hl.pairs c p ha hp).wait
  rw [h] at he
  exact handOver_owner he

theorem own_exit (h : (s.proc c).pc.ownExit = .notYet) :
    ((s.proc c).lock .exit).holder ≠ some c := by
  have he := (hl.pairs c p ha hp).exit
  have hne : p ≠ c := Nat.ne_of_lt (hl.older c p hp)
  rw [h] at he
  have hx : ((s.proc c).lock .exit).pair.2 = ((s.proc c).lock .exit).holder := rfl
  rw [← hx]
  cases hq : ((s.proc p).pc.towards c).useExit <;> rw [hq] at he <;>
    rw [← Option.some.inj he] <;> simp [hne]

theorem parent_exit (ht : (s.proc p).pc.target = some c) (h : (s.proc p).pc.useExit = .notYet) :
    ((s.proc c).lock .exit).pair = (1, none) := by
  have he := (hl.pairs c p ha hp).exit
  rw [PC.towards_of_target ht, h] at he
  cases ho : (s.proc c).pc.ownExit with
  | notYet =>
    rw [ho] at he
    exact (Option.some.inj he).symm
  | downed | held =>
    rw [ho] at he
    cases he

theorem parent_exec (ht : (s.proc p).pc.target = some c) (h : (s.proc p).pc.takeExec = .notYet) :
    ((s.proc c).lock .exec).holder ≠ some p := by
  have he := (hl.pairs c p ha hp).exec
  have hne : c ≠ p := Nat.ne_of_gt (hl.older c p hp)
  rw [PC.towards_of_target ht, h] at he
  rcases handOver_waiting he with h1 | h1 <;> rw [h1]
  · exact nofun
  · exact fun h2 => hne (Option.some.inj h2)

theorem exec_ready (ht : (s.proc p).pc.target = some c) (h : (s.proc p).pc.takeExec = .notYet)
    (hr : (s.proc c).pc.relExec = .upped) : ((s.proc c).lock .exec).value = 1 := by
  have he := (hl.pairs c p ha hp).exec
  rw [PC.towards_of_target ht, h, hr] at he
  exact handOver_ready he

end Holders

variable {k : Acq → PC} {a : Acq} {r : Rel} {s' : PSys} {e : PEvent} {q : PC}

section Crashes

variable (s : PSys) (t c : Tid) (l : LockName) (g : ℕ) (done : PC)

theorem acquireStep_sound (hc : (s.proc c).life = .alive)
    (hheld : a = .check → ((s.proc c).lock l).holder ≠ some t) :
    (acquireStep s t c l g k done a).crashed = s.crashed := by
  have hon : s.onAllList c = true := (s.onAllList_iff c).mpr hc
  cases a with
  | lookup | hold =>
    simp only [acquireStep, if_pos hon]
    rfl
  | check =>
    simp only [acquireStep, if_pos hon, if_neg (hheld rfl)]
    exact s.crashed_touch c
  | down =>
    simp only [acquireStep, if_pos hon]
    split <;> rfl

theorem releaseStep_sound {k : Rel → PC} (hc : (s.proc c).life = .alive)
    (hheld : r = .check → ((s.proc c).lock l).holder = some t) :
    (releaseStep s t c l g k done r).crashed = s.crashed := by
  have hon : s.onAllList c = true := (s.onAllList_iff c).mpr hc
  cases r with
  | lookup | clear =>
    simp only [releaseStep, if_pos hon]
    rfl
  | check =>
    simp only [releaseStep, if_pos hon, if_pos (hheld rfl)]
    exact s.crashed_touch c
  | up =>
    simp only [releaseStep, if_pos hon]
    exact congrArg Prod.snd (flags_plockUp s c l g)

end Crashes

variable {s : PSys} {g : ℕ} {c t : Tid}

theorem runStep_crash (hl : Locks s) (hr : Rooted s) (h : Tale s) (hs : runStep s t g = some s')
    (ha : (s.proc t).life = .alive) : s'.crashed = s.crashed ∨
      ((s.proc t).pc.waits = true ∧ ∃ e, s'.crashed = some (e, t, (s.proc t).pc)) := by
  -- the child of a call of `process_execute` is alive where it is used
  have hkid : ∀ c, (s.proc t).pc.execDerefs = some c → (s.proc c).life = .alive := fun c hc =>
    (h c t (hl.targets t c (PC.target_of_execDerefs hc))).refs hc
  have hparent : (s.proc t).pc.leaving = true ∨ (s.proc t).pc.starting = true →
      ∃ p, (s.proc t).parent = some p := by
    intro hor
    cases hp : (s.proc t).parent with
    | some p => exact ⟨p, rfl⟩
    | none =>
      obtain ⟨_, h1, h2⟩ := hr t ha hp
      rcases hor with h3 | h3
      · cases h1.symm.trans h3
      · cases h2.symm.trans h3
  unfold runStep at hs
  generalize hpc : (s.proc t).pc = pc at hs
  cases pc with
  | kernel | user | create | load | dead => cases hs
  | soonLookup c | execTest2 c =>
    cases hs
    rw [if_pos ((s.onAllList_iff c).mpr (hkid c (by rw [hpc]; rfl)))]
    exact .inl rfl
  | statusLookup c =>
    cases hs
    split
    · exact .inl rfl
    · refine .inr ⟨rfl, .nullDeref, ?_⟩
      rw [PSys.crash, hpc]
  | soonWrite c =>
    cases hs
    split
    · exact .inl rfl
    · exact .inl (s.crashed_touch c)
  | execExit c a =>
    cases hs
    have hc := hkid c (by rw [hpc]; rfl)
    have hat : (s.proc t).pc.target = some c := by
      rw [hpc]
      rfl
    refine .inl (acquireStep_sound s t c .exit g _ hc fun hcheck hheld => ?_)
    have hpair := parent_exit hl hc (hl.targets t c hat) hat (by rw [hpc, hcheck]; rfl)
    cases hheld.symm.trans (congrArg Prod.snd hpair)
  | execExec c a =>
    cases hs
    have hc := hkid c (by rw [hpc]; rfl)
    have hat : (s.proc t).pc.target = some c := by
      rw [hpc]
      rfl
    refine .inl (acquireStep_sound s t c .exec g _ hc fun hcheck => ?_)
    exact parent_exec hl hc (hl.targets t c hat) hat (by rw [hpc, hcheck]; rfl)
  | execTest c | waitGuard tid =>
    cases hs
    split <;> exact .inl rfl
  | execRead c | statusRead c =>
    cases hs
    exact .inl (s.crashed_touch c)
  | waitReturn c status | failStatus | failSoon | exitHeld | exitTest =>
    cases hs
    exact .inl rfl
  | waitWait c a | waitExit2 c status a =>
    cases hs
    rw [← hpc]
    obtain ⟨_, _, hm⟩ := acquireStep_moves s t c _ g _ hpc
    exact hm.crashed.imp_right fun he => ⟨by rw [hpc]; rfl, he⟩
  | waitExit c status r =>
    cases hs
    rw [← hpc]
    obtain ⟨_, _, hm⟩ := releaseStep_moves s t c _ g _ hpc
    exact hm.crashed.imp_right fun he => ⟨by rw [hpc]; rfl, he⟩
  | startRel r | failRel r | exitExec r =>
    cases hs
    obtain ⟨p, hp⟩ := hparent (by rw [hpc]; simp [PC.leaving, PC.starting])
    refine .inl (releaseStep_sound s t t .exec g _ ha fun hcheck => ?_)
    exact own_exec hl ha hp (by rw [hpc, hcheck]; rfl)
  | exitWait r =>
    cases hs
    obtain ⟨p, hp⟩ := hparent (.inl (by rw [hpc]; rfl))
    refine .inl (releaseStep_sound s t t .wait g _ ha fun hcheck => ?_)
    exact own_wait hl ha hp (by rw [hpc, hcheck]; rfl)
  | exitExit a =>
    cases hs
    obtain ⟨p, hp⟩ := hparent (.inl (by rw [hpc]; rfl))
    refine .inl (acquireStep_sound s t t .exit g _ ha fun hcheck => ?_)
    exact own_exit hl ha hp (by rw [hpc, hcheck]; rfl)
  | die | dieSoon =>
    cases hs
    obtain ⟨p, hp⟩ := hparent (.inl (by rw [hpc]; rfl))
    have hheld : ((s.proc t).lock .exit2).holder = some t :=
      congrArg Prod.snd (hl.pairs t p ha hp).exit2
    left
    simp only [dieStep, if_pos hheld]
    exact congrArg Prod.snd (flags_plockUp _ t .exit2 g)

theorem pStep_crash (hl : Locks s) (hr : Rooted s) (h : Tale s) (hs : pStep s e = some s')
    (hd : Delivers s e) :
    s'.crashed = none ∨ ∃ x t pc, s'.crashed = some (x, t, pc) ∧ pc.waits = true ∧
      (s.proc e.thread).pc = pc := by
  obtain ⟨hnone, ha, _, hs⟩ := pStep_can hs
  have quiet : s'.crashed = s.crashed → s'.crashed = none := fun h1 => h1.trans hnone
  cases hs with
  | run hs =>
    rcases runStep_crash hl hr h hs ha with h1 | ⟨hw, x, hx⟩
    · exact .inl (quiet h1)
    · exact .inr ⟨x, _, _, hx, hw, rfl⟩
  | noThread => cases hd
  | noFile => exact absurd rfl hd
  | copied | noCopy | wait | exit | terminate | kill | created | loaded | failed =>
    exact .inl hnone

/-! ## 2. `process_execute` goes on -/

/-- The steps that are left in `lock_acquire`. -/
def Acq.left : Acq → ℕ
  | .lookup => 4
  | .check => 3
  | .down => 2
  | .hold => 1

def Rel.left : Rel → ℕ
  | .lookup => 4
  | .check => 3
  | .clear => 2
  | .up => 1

theorem Acq.left_pos (a : Acq) : 0 < a.left := by
  cases a <;> decide

theorem Rel.left_pos (r : Rel) : 0 < r.left := by
  cases r <;> decide

namespace PC

/-- The child that a call of `process_execute` has created. -/
def execCall : PC → Option Tid
  | .soonLookup c | .soonWrite c | .execExit c _ | .execExec c _ | .execTest c | .execTest2 c
  | .execRead c => some c
  | _ => none

/-- The steps that are left in `process_execute`. -/
def execLeft : PC → ℕ
  | .soonLookup _ => 13
  | .soonWrite _ => 12
  | .execExit _ a => 7 + a.left
  | .execExec _ a => 3 + a.left
  | .execTest _ => 3
  | .execTest2 _ => 2
  | .execRead _ => 1
  | _ => 0

/-- The steps that are left until a child has released its `lock_exec`. -/
def startLeft : PC → ℕ
  | .load => 7
  | .failStatus => 6
  | .failSoon => 5
  | .startRel r | .failRel r | .exitExec r => r.left
  | _ => 0

theorem target_of_execCall (h : q.execCall = some c) : q.target = some c := by
  cases q <;> first | exact h | cases h

theorem waits_of_execCall (h : q.execCall = some c) : q.waits = false := by
  cases q <;> first | rfl | cases h

theorem tests_of_execCall (h : q.execCall = some c) : q.tests = none := by
  cases q <;> first | rfl | cases h

/-- Who still has `lock_exec` sleeps on nothing and is in none of the calls. -/
theorem of_holding (h : q.relExec ≠ .upped) :
    (∀ t, q.sleepsOn t = none) ∧ q.waits = false ∧ q ≠ .create := by
  cases q <;> first | exact absurd rfl h | exact ⟨fun _ => rfl, rfl, nofun⟩

end PC

section Advance

variable (s : PSys) (t c : Tid) (l : LockName) (g : ℕ) (done : PC)

theorem acquireStep_advances (hc : (s.proc c).life = .alive)
    (hheld : a = .check → ((s.proc c).lock l).holder ≠ some t)
    (hv : a = .down → ((s.proc c).lock l).value ≠ 0) :
    ∃ pc', (pc' = done ∨ ∃ b, pc' = k b ∧ b.left < a.left) ∧
      Goes s (acquireStep s t c l g k done a) t pc' := by
  have hon : s.onAllList c = true := (s.onAllList_iff c).mpr hc
  cases a with
  | lookup =>
    simp only [acquireStep, if_pos hon]
    exact ⟨_, .inr ⟨.check, rfl, by decide⟩, (Still.refl s).goto t _⟩
  | check =>
    simp only [acquireStep, if_pos hon, if_neg (hheld rfl)]
    exact ⟨_, .inr ⟨.down, rfl, by decide⟩, (Still.touch s c).goto t _⟩
  | down =>
    simp only [acquireStep, if_pos hon, if_neg (hv rfl)]
    exact ⟨_, .inr ⟨.hold, rfl, by decide⟩, (Still.setLock s c l _).goto t _⟩
  | hold =>
    simp only [acquireStep, if_pos hon]
    exact ⟨_, .inl rfl, (Still.setLock s c l _).goto t _⟩

theorem releaseStep_advances {k : Rel → PC} (hc : (s.proc c).life = .alive)
    (hheld : r = .check → ((s.proc c).lock l).holder = some t) :
    ∃ pc', (pc' = done ∨ ∃ b, pc' = k b ∧ b.left < r.left) ∧
      Goes s (releaseStep s t c l g k done r) t pc' := by
  have hon : s.onAllList c = true := (s.onAllList_iff c).mpr hc
  cases r with
  | lookup =>
    simp only [releaseStep, if_pos hon]
    exact ⟨_, .inr ⟨.check, rfl, by decide⟩, (Still.refl s).goto t _⟩
  | check =>
    simp only [releaseStep, if_pos hon, if_pos (hheld rfl)]
    exact ⟨_, .inr ⟨.clear, rfl, by decide⟩, (Still.touch s c).goto t _⟩
  | clear =>
    simp only [releaseStep, if_pos hon]
    exact ⟨_, .inr ⟨.up, rfl, by decide⟩, (Still.setLock s c l _).goto t _⟩
  | up =>
    simp only [releaseStep, if_pos hon]
    exact ⟨_, .inl rfl, (Still.plockUp s c l g).goto t _⟩

end Advance

/-- `process_execute` of `p` has returned for the child `c`. -/
def Answered (p c : Tid) (s : PSys) : Prop :=
  (s.proc p).pc = .user ∧ (s.proc c).execResult ≠ none

section Caller

variable {s : PSys} {p c : Tid} (hl : Locks s) (h : Tale s) (hcall : (s.proc p).pc.execCall = some c)
include hl h hcall

/-- The caller's next step, when it does not have to wait for `lock_exec`. -/
theorem caller_step (ha : (s.proc p).life = .alive)
    (hready : (s.proc p).pc = .execExec c .down → (s.proc c).pc.relExec = .upped) :
    ∃ s', runStep s p 0 = some s' ∧ (s'.proc p).life = .alive ∧
      (Answered p c s' ∨
        ((s'.proc p).pc.execCall = some c ∧ (s'.proc p).pc.execLeft < (s.proc p).pc.execLeft)) := by
  have hat := PC.target_of_execCall hcall
  have hp := hl.targets p c hat
  have hne : p ≠ c := Nat.ne_of_lt (hl.older c p hp)
  have hkid : (s.proc p).pc.execDerefs = some c → (s.proc c).life = .alive := (h c p hp).refs
  -- the step leads to `pc'`, one step further in the call
  have moves : ∀ {s' : PSys} {pc' : PC}, Goes s s' p pc' → pc'.execCall = some c →
      pc'.execLeft < (s.proc p).pc.execLeft → (s'.proc p).life = .alive ∧
      (Answered p c s' ∨
        ((s'.proc p).pc.execCall = some c ∧ (s'.proc p).pc.execLeft < (s.proc p).pc.execLeft)) := by
    intro s' pc' hg h1 h2
    rw [hg.life, hg.here]
    exact ⟨ha, .inr ⟨h1, h2⟩⟩
  have returns : ∀ (s₁ : PSys) (r : Int), s₁.proc p = s.proc p →
      ((returnExec s₁ p c r).proc p).life = .alive ∧ Answered p c (returnExec s₁ p c r) := by
    intro s₁ r h1
    simp [returnExec, Answered, hne, hne.symm, h1, ha]
  cases hpc : (s.proc p).pc with
  | soonLookup d | execTest2 d =>
    rw [hpc] at hcall hkid moves
    cases hcall
    simp only [runStep, hpc, if_pos ((s.onAllList_iff c).mpr (hkid rfl))]
    exact ⟨_, rfl, moves ((Still.refl s).goto p _) rfl (Nat.lt_succ_self _)⟩
  | soonWrite d =>
    rw [hpc] at hcall hkid
    cases hcall
    simp only [runStep, hpc, if_pos ((s.onAllList_iff c).mpr (hkid rfl))]
    refine ⟨_, rfl, ?_, .inr ?_⟩
    · simp [PSys.goto, hne, ha]
    · simp [PSys.goto, PC.execCall, PC.execLeft, Acq.left]
  | execExit d a =>
    have hfree : a = .check ∨ a = .down → ((s.proc c).lock .exit).pair = (1, none) := by
      rintro (rfl | rfl) <;>
        exact parent_exit hl (hkid (by rw [hpc] at hcall ⊢; exact hcall)) hp hat (by rw [hpc]; rfl)
    rw [hpc] at hcall hkid moves
    cases hcall
    obtain ⟨pc', hpc', hg⟩ := acquireStep_advances s p c .exit 0 (.execExec c .lookup)
      (k := .execExit c) (a := a) (hkid rfl)
      (fun h1 h2 => by cases h2.symm.trans (congrArg Prod.snd (hfree (.inl h1))))
      (fun h1 h2 => by cases h2.symm.trans (congrArg Prod.fst (hfree (.inr h1))))
    simp only [runStep, hpc]
    refine ⟨_, rfl, moves hg ?_ ?_⟩ <;> rcases hpc' with rfl | ⟨b, rfl, hlt⟩
    · rfl
    · rfl
    · exact Nat.add_lt_add_left a.left_pos 7
    · exact Nat.add_lt_add_left hlt 7
  | execExec d a =>
    have hfree : a = .check → ((s.proc c).lock .exec).holder ≠ some p := by
      rintro rfl
      exact parent_exec hl (hkid (by rw [hpc] at hcall ⊢; exact hcall)) hp hat (by rw [hpc]; rfl)
    have hvalue : a = .down → ((s.proc c).lock .exec).value ≠ 0 := by
      rintro rfl
      have hd : d = c := by
        rw [hpc] at hcall
        exact Option.some.inj hcall
      subst hd
      rw [exec_ready hl (hkid (by rw [hpc]; rfl)) hp hat (by rw [hpc]; rfl) (hready hpc)]
      exact Nat.one_ne_zero
    rw [hpc] at hcall hkid moves
    cases hcall
    obtain ⟨pc', hpc', hg⟩ := acquireStep_advances s p c .exec 0 (.execTest c)
      (k := .execExec c) (a := a) (hkid rfl) hfree hvalue
    simp only [runStep, hpc]
    refine ⟨_, rfl, moves hg ?_ ?_⟩ <;> rcases hpc' with rfl | ⟨b, rfl, hlt⟩
    · rfl
    · rfl
    · exact Nat.add_lt_add_left a.left_pos 3
    · exact Nat.add_lt_add_left hlt 3
  | execTest d =>
    rw [hpc] at hcall moves
    cases hcall
    by_cases hon : s.onAllList c = true
    · simp only [runStep, hpc, if_pos hon]
      exact ⟨_, rfl, moves ((Still.refl s).goto p _) rfl (Nat.lt_succ_self _)⟩
    · simp only [runStep, hpc, if_neg hon]
      obtain ⟨h1, h2⟩ := returns s tidError rfl
      exact ⟨_, rfl, h1, .inl h2⟩
  | execRead d =>
    rw [hpc] at hcall
    cases hcall
    simp only [runStep, hpc]
    obtain ⟨h1, h2⟩ := returns (s.touch c) _ (s.proc_touch c p)
    exact ⟨_, rfl, h1, .inl h2⟩
  | _ =>
    rw [hpc] at hcall
    cases hcall

end Caller

section Child

variable {s : PSys} {p c : Tid} (hl : Locks s) (h : Tale s)
include hl h

theorem child_step (hpc : (s.proc p).pc = .execExec c .down) (hr : (s.proc c).pc.relExec ≠ .upped) :
    ∃ e s', e.thread = c ∧ Delivers s e ∧ pEvent s e = some s' ∧
      (s'.proc c).pc.startLeft < (s.proc c).pc.startLeft := by
  have hat : (s.proc p).pc.target = some c := by
    rw [hpc]
    rfl
  have hp := hl.targets p c hat
  have ha : (s.proc c).life = .alive := (h c p hp).refs (by rw [hpc]; rfl)
  have hsoon : ∀ q ∈ (s.proc c).parent, (s.proc q).pc.beforeSoon ≠ some c := by
    intro q hq
    have hqp : q = p := Option.some.inj (hq.symm.trans hp)
    rw [hqp, hpc]
    rintro ⟨⟩
  -- a step that is not at one of the points that `Delivers` restricts
  have free : (s.proc c).pc ≠ .exitExit .down → (s.proc c).pc.tests = none →
      (s.proc c).pc ≠ .die ∧ (s.proc c).pc ≠ .dieSoon → Delivers s (.run c 0) := by
    intro h1 h2 h3
    refine ⟨⟨fun h4 => absurd h4 h1, fun tid ht => ?_⟩, fun _ => hsoon, fun h4 => ?_⟩
    · rw [h2] at ht
      cases ht
    · rcases h4 with h4 | h4
      · exact absurd h4 h3.1
      · exact absurd h4 h3.2
  have releases : ∀ {k : Rel → PC} {r : Rel} {done : PC}, (s.proc c).pc = k r →
      runStep s c 0 = some (releaseStep s c c .exec 0 k done r) → Delivers s (.run c 0) →
      (∀ b, (k b).relExec = b.stage) → (∀ b, (k b).startLeft = b.left) → done.startLeft = 0 →
      ∃ e s', e.thread = c ∧ Delivers s e ∧ pEvent s e = some s' ∧
        (s'.proc c).pc.startLeft < (s.proc c).pc.startLeft := by
    intro k r done hk hrun hd hstage hleft hdone
    obtain ⟨pc', hpc', hg⟩ := releaseStep_advances s c c .exec 0 done (k := k) (r := r) ha
      fun hcheck => own_exec hl ha hp (by rw [hk, hstage, hcheck]; rfl)
    refine ⟨.run c 0, _, rfl, hd, hrun, ?_⟩
    rw [hg.here, hk, hleft]
    rcases hpc' with rfl | ⟨b, rfl, hlt⟩
    · rw [hdone]
      exact r.left_pos
    · rw [hleft]
      exact hlt
  cases hx : (s.proc c).pc with
  | load =>
    refine ⟨.load c .success, s.modify c fun x => { x with pc := .startRel .check, loaded := some true },
      rfl, by rintro ⟨⟩, ?_, ?_⟩
    · simp [pEvent, hx]
    · simp [PC.startLeft, Rel.left]
  | failStatus =>
    refine ⟨.run c 0, (s.modify c fun x => { x with exitStatus := -1 }).goto c .failSoon, rfl, ?_, ?_, ?_⟩
    · exact free (by simp [hx]) (by rw [hx]; rfl) (by simp [hx])
    · simp only [pEvent, runStep, hx]
    · simp [PSys.goto, PC.startLeft]
  | failSoon =>
    refine ⟨.run c 0, (s.modify c fun x => { x with exitSoon := true }).goto c (.failRel .check), rfl,
      ?_, ?_, ?_⟩
    · exact free (by simp [hx]) (by rw [hx]; rfl) (by simp [hx])
    · simp only [pEvent, runStep, hx]
    · simp [PSys.goto, PC.startLeft, Rel.left]
  | startRel r | failRel r | exitExec r =>
    rw [← hx]
    refine releases hx (by simp only [runStep, hx]; rfl) (free ?_ ?_ ?_) (fun _ => rfl)
      (fun _ => rfl) rfl <;> rw [hx]
    · simp
    · rfl
    · simp
  | _ =>
    rw [hx] at hr
    exact absurd rfl hr

end Child

/-- Everything that the steps keep which meet `Delivers`. -/
structure Sound (s : PSys) : Prop where
  locks : Locks s
  rooted : Rooted s
  tale : Tale s
  asleep : Sleepers False s

theorem pInit_sound : Sound pInit := ⟨pInit_locks, pInit_rooted, pInit_tale, pInit_sleepers⟩

theorem pStep_sound (h : Sound s) (hs : pStep s e = some s') (hd : Delivers s e) : Sound s' :=
  ⟨pStep_locks h.locks hs hd.discipline, pStep_rooted h.locks h.rooted hs,
    pStep_tale h.tale h.locks hs hd, pStep_sleepers h.locks h.asleep hs nofun⟩

variable {p : Tid}

theorem delivers_of_execCall (h : (s.proc p).pc.execCall = some c) : Delivers s (.run p g) := by
  refine ⟨⟨fun h1 => ?_, fun tid h1 => ?_⟩, fun h1 => ?_, fun h1 => ?_⟩
  · rw [h1] at h
    cases h
  · rw [PC.tests_of_execCall h] at h1
    cases h1
  · rw [h1] at h
    cases h
  · rcases h1 with h1 | h1 <;> rw [h1] at h <;> cases h

section Progress

variable {s : PSys} {p c : Tid} (h : Sound s) (hcall : (s.proc p).pc.execCall = some c)
include h hcall

/-- The caller sleeps only on `lock_exec`, and only as long as the child has not released it. -/
theorem caller_awake (hready : (s.proc p).pc = .execExec c .down → (s.proc c).pc.relExec = .upped) :
    (s.proc p).blockedOn = none := by
  have hat := PC.target_of_execCall hcall
  have hp := h.locks.targets p c hat
  cases hb : (s.proc p).blockedOn with
  | none => rfl
  | some x =>
    obtain ⟨d, l⟩ := x
    obtain ⟨_, hmem, hsleep⟩ := h.asleep.blocked p d l hb
    -- asleep on a lock of `c` whose semaphore is up
    have hup : d = c → (s.proc c).life = .alive → ((s.proc c).lock l).value = 1 → False := by
      rintro rfl ha hv
      have hw := h.asleep.free d l ha (by rw [hv]; exact Nat.one_ne_zero)
      have hmem' := hmem ha
      rw [hw] at hmem'
      cases hmem'
    have hrefs := (h.tale c p hp).refs
    cases hpc : (s.proc p).pc with
    | execExit e a =>
      rw [hpc] at hcall hsleep
      cases hcall
      cases a <;> cases hsleep
      have ha := hrefs (by rw [hpc]; rfl)
      exact (hup rfl ha (exit_free h.locks ha hpc)).elim
    | execExec e a =>
      rw [hpc] at hcall hsleep
      cases hcall
      cases a <;> cases hsleep
      have ha := hrefs (by rw [hpc]; rfl)
      exact (hup rfl ha (exec_ready h.locks ha hp hat (by rw [hpc]; rfl) (hready hpc))).elim
    | _ =>
      rw [hpc] at hcall hsleep
      first | cases hsleep | cases hcall

/-- **`process_execute` is never stuck**: the caller or the child can take a step that brings it
    closer to its end. -/
theorem execute_goes_on (hcrash : s.crashed = none) (ha : (s.proc p).life = .alive) :
    ∃ e s', Delivers s e ∧ pStep s e = some s' ∧ s'.crashed = none ∧ (s'.proc p).life = .alive ∧
      (Answered p c s' ∨ ((s'.proc p).pc.execCall = some c ∧
        (s'.proc p).pc.execLeft + (s'.proc c).pc.startLeft <
          (s.proc p).pc.execLeft + (s.proc c).pc.startLeft)) := by
  have hat := PC.target_of_execCall hcall
  have hp := h.locks.targets p c hat
  have hne : p ≠ c := Nat.ne_of_lt (h.locks.older c p hp)
  have quiet : ∀ {e : PEvent} {s' : PSys}, Delivers s e → pStep s e = some s' →
      (s.proc e.thread).pc.waits = false → s'.crashed = none := by
    intro e s' hd hs hw
    rcases pStep_crash h.locks h.rooted h.tale hs hd with h1 | ⟨_, _, pc, _, h2, h3⟩
    · exact h1
    · rw [h3, h2] at hw
      cases hw
  by_cases hwait : (s.proc p).pc = .execExec c .down ∧ (s.proc c).pc.relExec ≠ .upped
  · obtain ⟨hpc, hr⟩ := hwait
    obtain ⟨e, s', rfl, hd, hs, hlt⟩ := child_step h.locks h.tale hpc hr
    obtain ⟨hawake, hcalm, hcreate⟩ := PC.of_holding hr
    have halive := (h.tale e.thread p hp).refs (by rw [hpc]; rfl)
    have hblocked : (s.proc e.thread).blockedOn = none := by
      cases hb : (s.proc e.thread).blockedOn with
      | none => rfl
      | some x =>
        have hsleep := (h.asleep.blocked e.thread x.1 x.2 hb).2.2
        cases (hawake e.thread).symm.trans hsleep
    have hstep : pStep s e = some s' := by
      rw [pStep, if_pos ⟨hcrash, halive, hblocked⟩]
      exact hs
    rcases pStep_others hstep with ho | ⟨hborn, _⟩
    · have hown := ho.own p hne
      have hpc' : (s'.proc p).pc = (s.proc p).pc := own_field Proc.pc hown fun _ => rfl
      refine ⟨e, s', hd, hstep, quiet hd hstep hcalm, ?_, .inr ?_⟩
      · rw [own_field Proc.life hown fun _ => rfl]
        exact ha
      · rw [hpc']
        exact ⟨hcall, Nat.add_lt_add_left hlt _⟩
    · exact absurd hborn hcreate
  · have hready : (s.proc p).pc = .execExec c .down → (s.proc c).pc.relExec = .upped := by
      intro hpc
      by_contra hr
      exact hwait ⟨hpc, hr⟩
    obtain ⟨s', hs, ha', hnext⟩ := caller_step h.locks h.tale hcall ha hready
    have hstep : pStep s (.run p 0) = some s' := by
      rw [pStep, if_pos ⟨hcrash, ha, caller_awake h hcall hready⟩]
      exact hs
    have hc' : (s'.proc c).pc = (s.proc c).pc :=
      own_field Proc.pc ((runStep_others hs).own c hne.symm) fun _ => rfl
    refine ⟨.run p 0, s', delivers_of_execCall hcall, hstep, quiet ?_ hstep ?_, ha', ?_⟩
    · exact delivers_of_execCall hcall
    · exact PC.waits_of_execCall hcall
    · rw [hc']
      exact hnext.imp_right fun hlt => ⟨hlt.1, Nat.add_lt_add_right hlt.2 _⟩

end Progress

/-- From inside `process_execute` there is always a way to its end. -/
theorem execute_returns (h : Sound s) (hcrash : s.crashed = none) (ha : (s.proc p).life = .alive)
    (hcall : (s.proc p).pc.execCall = some c) :
    ∃ s', Reach pStep Delivers s s' ∧ Answered p c s' := by
  refine Reach.progress (I := fun s => Sound s ∧ s.crashed = none ∧ (s.proc p).life = .alive ∧
      (s.proc p).pc.execCall = some c)
    (fun s => (s.proc p).pc.execLeft + (s.proc c).pc.startLeft) ?_ ⟨h, hcrash, ha, hcall⟩
  intro s ⟨h, hcrash, ha, hcall⟩
  obtain ⟨e, s', hd, hs, hcrash', ha', hnext⟩ := execute_goes_on h hcall hcrash ha
  refine ⟨e, s', hd, hs, hnext.imp_right fun hlt => ?_⟩
  exact ⟨⟨pStep_sound h hs hd, hcrash', ha', hlt.1⟩, hlt.2⟩

/-! ## 3. Delivery -/

/-- **What a parent is told about its child.** -/
structure Delivered (s : PSys) : Prop where
  /-- `process_execute` has returned the tid of a child that was loaded, and `TID_ERROR` for one that
      was not. -/
  exec : ∀ c p r, (s.proc c).parent = some p → (s.proc c).execResult = some r →
    ((s.proc c).loaded = some true ∧ r = c) ∨ ((s.proc c).loaded = some false ∧ r = tidError)
  /-- The first `process_wait` for a child whose tid it has returned the status that is owed. -/
  wait : ∀ c p r, (s.proc c).parent = some p → (s.proc c).execResult = some (c : Int) →
    (s.proc c).waitResult = some r → (s.proc c).ended = some r
  /-- If the machine has stopped, it was in `process_wait`, which has not returned then. -/
  stops : ∀ e t pc, s.crashed = some (e, t, pc) → pc.waits = true
  /-- A call of `process_execute` that is under way can be completed. -/
  returns : s.crashed = none → ∀ p c, (s.proc p).life = .alive →
    (s.proc p).pc.execCall = some c → ∃ s', Reach pStep Delivers s s' ∧ Answered p c s'

end Pintos
