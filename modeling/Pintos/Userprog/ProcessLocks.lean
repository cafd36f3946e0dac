/-
  Subject:   Every step of the processes keeps to the lock protocol.

  Every step keeps `Locks` which meets `LockDiscipline`: a child takes its `lock_exit` only after its
  parent has, and `process_wait` goes past its test only for a child of the caller.
-/
import Pintos.Userprog.LockProtocol

namespace Pintos

/-! ## 1. The calls -/

section Locked

variable {c p : Tid} {x : Proc} {q q' : PC} {y : PLock}

variable {pc : PC}

theorem HandsOver.setExec (h : HandsOver c p x q)
    (exec : handOver c p pc.relExec q'.takeExec = some y.pair) (hw : pc.relWait = x.pc.relWait)
    (ho : pc.ownExit = x.pc.ownExit) (hw' : q'.takeWait = q.takeWait) (he' : q'.useExit = q.useExit)
    (h2' : q'.takeExit2 = q.takeExit2) : HandsOver c p { x.withLock .exec y with pc := pc } q' where
  exec := by simpa [Proc.withLock] using exec
  wait := by simpa [Proc.withLock, hw, hw'] using h.wait
  exit := by simpa [Proc.withLock, ho, he'] using h.exit
  exit2 := by simpa [Proc.withLock] using h.exit2
  before := h2'.trans h.before

theorem HandsOver.setWait (h : HandsOver c p x q)
    (wait : handOver c p pc.relWait q'.takeWait = some y.pair) (hr : pc.relExec = x.pc.relExec)
    (ho : pc.ownExit = x.pc.ownExit) (hr' : q'.takeExec = q.takeExec) (he' : q'.useExit = q.useExit)
    (h2' : q'.takeExit2 = q.takeExit2) : HandsOver c p { x.withLock .wait y with pc := pc } q' where
  exec := by simpa [Proc.withLock, hr, hr'] using h.exec
  wait := by simpa [Proc.withLock] using wait
  exit := by simpa [Proc.withLock, ho, he'] using h.exit
  exit2 := by simpa [Proc.withLock] using h.exit2
  before := h2'.trans h.before

theorem HandsOver.setExit (h : HandsOver c p x q)
    (exit : exitLock c p q'.useExit pc.ownExit = some y.pair) (hr : pc.relExec = x.pc.relExec)
    (hw : pc.relWait = x.pc.relWait) (hr' : q'.takeExec = q.takeExec)
    (hw' : q'.takeWait = q.takeWait) (h2' : q'.takeExit2 = q.takeExit2) :
    HandsOver c p { x.withLock .exit y with pc := pc } q' where
  exec := by simpa [Proc.withLock, hr, hr'] using h.exec
  wait := by simpa [Proc.withLock, hw, hw'] using h.wait
  exit := by simpa [Proc.withLock] using exit
  exit2 := by simpa [Proc.withLock] using h.exit2
  before := h2'.trans h.before

end Locked

section Calls

variable {s : PSys} {t c : Tid} {g : ℕ} (h : Locks s)
include h

variable {a : Acq} {status : Int} {r : Rel}

theorem Locks.execExit (hpc : (s.proc t).pc = .execExit c a) :
    Locks (acquireStep s t c .exit g (.execExit c) (.execExec c .lookup) a) := by
  refine h.acquire hpc (fun _ => rfl) rfl ?_ ?_ ?_ ?_
  · exact fun _ hq => { hq with }
  · exact fun _ hq => { hq with }
  · exact fun _ _ hq => hq.setExit (exitLock_take hq.exit) rfl rfl rfl rfl rfl
  · exact fun _ hq => hq.setExit (exitLock_hold hq.exit) rfl rfl rfl rfl rfl

theorem Locks.execExec (hpc : (s.proc t).pc = .execExec c a) :
    Locks (acquireStep s t c .exec g (.execExec c) (.execTest c) a) := by
  refine h.acquire hpc (fun _ => rfl) rfl ?_ ?_ ?_ ?_
  · exact fun _ hq => { hq with }
  · exact fun _ hq => { hq with }
  · exact fun _ hv hq => hq.setExec (handOver_take hq.exec hv) rfl rfl rfl rfl rfl
  · exact fun _ hq => hq.setExec (handOver_hold hq.exec) rfl rfl rfl rfl rfl

theorem Locks.waitWait (hpc : (s.proc t).pc = .waitWait c a) :
    Locks (acquireStep s t c .wait g (.waitWait c) (.statusLookup c) a) := by
  refine h.acquire hpc (fun _ => rfl) rfl ?_ ?_ ?_ ?_
  · exact fun _ hq => { hq with }
  · exact fun _ hq => { hq with }
  · exact fun _ hv hq => hq.setWait (handOver_take hq.wait hv) rfl rfl rfl rfl rfl
  · exact fun _ hq => hq.setWait (handOver_hold hq.wait) rfl rfl rfl rfl rfl

theorem Locks.waitExit (hpc : (s.proc t).pc = .waitExit c status r) :
    Locks (releaseStep s t c .exit g (.waitExit c status) (.waitExit2 c status .lookup) r) := by
  refine h.release hpc (fun _ => rfl) rfl ?_ ?_ ?_ ?_
  · exact fun _ hq => { hq with }
  · exact fun _ hq => { hq with }
  · exact fun _ hq => hq.setExit (exitLock_clear hq.exit) rfl rfl rfl rfl rfl
  · exact fun _ hq => hq.setExit (exitLock_up hq.exit) rfl rfl rfl rfl rfl

theorem Locks.waitExit2 (hpc : (s.proc t).pc = .waitExit2 c status a) :
    Locks (acquireStep s t c .exit2 g (.waitExit2 c status) (.waitReturn c status) a) := by
  refine h.acquire hpc (fun _ => rfl) rfl ?_ ?_ ?_ ?_
  · exact fun _ hq => { hq with }
  · exact fun _ hq => { hq with }
  · -- the value is 0 as long as the child lives
    exact fun x hv hq => absurd (congrArg Prod.fst hq.exit2) hv
  · exact fun _ hq => absurd hq.before (by simp [PC.takeExit2, Acq.stage])

/-- `lock_release (&thread_current ()->lock_exec)`, from any of its three places. -/
theorem Locks.ownExec {k : Rel → PC} {done : PC} (hpc : (s.proc t).pc = k r)
    (halive : s.onAllList t = true)
    (hk : ∀ b, (k b).target = none ∧ (k b).relExec = b.stage ∧ (k b).relWait = .held ∧
      (k b).ownExit = .notYet) (hd : done.target = none) (hde : done.relExec = .upped)
    (hdw : done.relWait = .held) (hdo : done.ownExit = .notYet) :
    Locks (releaseStep s t t .exec g k done r) := by
  have hw : ∀ b b', (k b).relWait = (k b').relWait := fun b b' =>
    (hk b).2.2.1.trans (hk b').2.2.1.symm
  have ho : ∀ b b', (k b).ownExit = (k b').ownExit := fun b b' =>
    (hk b).2.2.2.trans (hk b').2.2.2.symm
  refine h.releaseSelf hpc (fun b => (hk b).1) hd ?_ ?_ ?_ ?_ halive
  · intro p q x hx hq
    exact hq.moved (fun _ => rfl) (by simp [hx, hk, Rel.stage]) (by rw [hx]; exact hw _ _)
      (by rw [hx]; exact ho _ _)
  · intro p q x hx hq
    exact hq.moved (fun _ => rfl) (by simp [hx, hk, Rel.stage]) (by rw [hx]; exact hw _ _)
      (by rw [hx]; exact ho _ _)
  · intro p q x hx hq
    have he := hq.exec
    rw [hx, (hk _).2.1] at he
    refine hq.setExec ?_ (by rw [hx]; exact hw _ _) (by rw [hx]; exact ho _ _) rfl rfl rfl
    rw [(hk _).2.1]
    exact handOver_clear he
  · intro p q x hx hq
    have he := hq.exec
    rw [hx, (hk _).2.1] at he
    refine hq.setExec ?_ (by rw [hx, hdw, (hk _).2.2.1]) (by rw [hx, hdo, (hk _).2.2.2]) rfl rfl rfl
    rw [hde]
    exact handOver_up he

theorem Locks.ownWait (hpc : (s.proc t).pc = .exitWait r) (halive : s.onAllList t = true) :
    Locks (releaseStep s t t .wait g .exitWait .exitTest r) := by
  refine h.releaseSelf hpc (fun _ => rfl) rfl ?_ ?_ ?_ ?_ halive
  · intro p q x hx hq
    exact hq.moved (fun _ => rfl) (by rw [hx]; rfl) (by rw [hx]; rfl) (by rw [hx]; rfl)
  · intro p q x hx hq
    exact hq.moved (fun _ => rfl) (by rw [hx]; rfl) (by rw [hx]; rfl) (by rw [hx]; rfl)
  · intro p q x hx hq
    have he := hq.wait
    rw [hx] at he
    exact hq.setWait (handOver_clear he) (by rw [hx]; rfl) (by rw [hx]; rfl) rfl rfl rfl
  · intro p q x hx hq
    have he := hq.wait
    rw [hx] at he
    exact hq.setWait (handOver_up he) (by rw [hx]; rfl) (by rw [hx]; rfl) rfl rfl rfl

theorem Locks.quiet {pc' : PC} (ht : (s.proc t).pc.target = none) (ht' : pc'.target = none)
    (he : pc'.relExec = (s.proc t).pc.relExec) (hw : pc'.relWait = (s.proc t).pc.relWait)
    (ho : pc'.ownExit = (s.proc t).pc.ownExit) : Locks (s.goto t pc') := by
  rw [← PSys.modify_id s t]
  exact h.advance keeps_id ht ht' fun _ _ hq => hq.moved (fun _ => rfl) he hw ho

/-- **`lock_acquire (&thread_current ()->lock_exit)`**, after the parent has taken that lock. -/
theorem Locks.ownExit (hpc : (s.proc t).pc = .exitExit a) (halive : s.onAllList t = true)
    (hd : a = .down → ∀ p, (s.proc t).parent = some p →
      ((s.proc p).pc.towards t).useExit ≠ .notYet) :
    Locks (acquireStep s t t .exit g .exitExit .die a) := by
  have ht : (s.proc t).pc.target = none := hpc ▸ rfl
  have onward : ∀ b, b.stage = a.stage → Locks (s.goto t (.exitExit b)) := fun b hb =>
    h.quiet ht rfl (by rw [hpc]; rfl) (by rw [hpc]; rfl) (by rw [hpc]; exact hb)
  cases a with
  | lookup =>
    rw [acquireStep, if_pos halive]
    exact onward .check rfl
  | check =>
    have hcrash : Locks ((s.touch t).crash .assertion t) :=
      (h.sim (sim_touch s t)).sim (sim_crash _ _ t)
    have hgo : Locks ((s.touch t).goto t (.exitExit .down)) :=
      (onward .down rfl).sim ((sim_touch s t).goto t _)
    simp only [acquireStep]
    split <;> split <;> assumption
  | down =>
    simp only [acquireStep, if_pos halive]
    split
    · exact h.sim (sim_wait s t t .exit _)
    · rename_i hv
      refine h.advance (keeps_lock .exit fun _ => _) ht rfl fun p hp hq => ?_
      have he := hq.exit
      rw [hpc] at he
      exact hq.setExit (exitLock_own_take he hv (hd rfl p hp)) (by rw [hpc]; rfl)
        (by rw [hpc]; rfl) rfl rfl rfl
  | hold =>
    simp only [acquireStep, if_pos halive]
    refine h.advance (keeps_lock .exit fun _ => _) ht rfl fun p hp hq => ?_
    have he := hq.exit
    rw [hpc] at he
    exact hq.setExit (exitLock_own_hold he) (by rw [hpc]; rfl) (by rw [hpc]; rfl) rfl rfl rfl

/-- The test of `thread_exit` for `lock_exec`: a child has released it before. -/
theorem Locks.exitHeld (hpc : (s.proc t).pc = .exitHeld) : Locks (s.goto t
      (if ((s.proc t).lock .exec).holder = some t then .exitExec .check else .exitWait .check)) := by
  have ht : (s.proc t).pc.target = none := hpc ▸ rfl
  split
  · rename_i hown
    rw [← PSys.modify_id s t]
    refine h.advance keeps_id ht rfl fun p hp hq => ?_
    have he := hq.exec
    rw [hpc] at he
    have hpt : p ≠ t := Nat.ne_of_lt (h.older t p hp)
    cases ha : ((s.proc p).pc.towards t).takeExec <;>
      simp_all [PC.relExec, handOver, PLock.pair]
  · exact h.quiet ht rfl (by rw [hpc]; rfl) (by rw [hpc]; rfl) (by rw [hpc]; rfl)

theorem Locks.death {f : Proc → Proc} (halive : (s.proc t).life = .alive)
    (hlife : (f (s.proc t)).life = .freed) (hparent : (f (s.proc t)).parent = (s.proc t).parent)
    (ht : (s.proc t).pc.target = none) (ht' : (f (s.proc t)).pc.target = none) :
    Locks (s.modify t f) := by
  have hpt : (s.modify t f).proc t = f (s.proc t) := by simp
  have hpo : ∀ u, u ≠ t → (s.modify t f).proc u = s.proc u := by
    intro u hu
    simp [hu]
  have hparents : ∀ u, ((s.modify t f).proc u).parent = (s.proc u).parent := by
    intro u
    by_cases hu : u = t
    · rw [hu, hpt, hparent]
    · rw [hpo u hu]
  refine ⟨fun u hu => ?_, fun d p hp => ?_, fun u d hd => ?_, fun d p hd hp => ?_⟩
  · have hut : u ≠ t := by
      rintro rfl
      rw [(h.fresh u hu).1] at halive
      cases halive
    rw [hpo u hut]
    exact h.fresh u hu
  · exact h.older d p (hparents d ▸ hp)
  · rw [hparents]
    by_cases hu : u = t
    · rw [hu, hpt, ht'] at hd
      cases hd
    · rw [hpo u hu] at hd
      exact h.targets u d hd
  · by_cases hdt : d = t
    · rw [hdt, hpt, hlife] at hd
      cases hd
    · rw [hpo d hdt] at hd hp ⊢
      have hold := h.pairs d p hd hp
      by_cases hpt' : p = t
      · subst hpt'
        rw [PC.towards_of_ne (by simp [ht])] at hold
        rw [hpt, PC.towards_of_ne (by simp [ht'])]
        exact hold
      · rw [hpo p hpt']
        exact hold

theorem Locks.dies (halive : (s.proc t).life = .alive) (ht : (s.proc t).pc.target = none) :
    Locks (dieStep s t g) := by
  unfold dieStep
  dsimp only
  split
  · refine Locks.sim ?_ ((sim_plockUp _ t .exit2 g).modify t _ fun x y hv => ?_)
    rotate_left
    · simp only [Proc.view, view_parent hv, view_pair hv]
    unfold PSys.setLock
    rw [PSys.modify_modify, PSys.modify_modify]
    exact h.death halive rfl rfl ht rfl
  · exact h.sim (sim_crash s _ t)

/-- **A new child** has its first three locks in its hands, and its parent none of them. -/
theorem Locks.born (hpc : (s.proc t).pc = .create) (halive : (s.proc t).life = .alive) :
    Locks (s.born t) := by
  have hlt : t < s.nextTid := lt_nextTid (fun u hu => (h.fresh u hu).1) halive
  have hpt := born_parent hlt
  have hpc' := born_child hlt
  have hpo : ∀ u, u ≠ t → u ≠ s.nextTid → (s.born t).proc u = s.proc u := fun _ => born_other
  have hnew := h.fresh s.nextTid (Nat.le_refl _)
  have hpar : ∀ d, d ≠ s.nextTid → ((s.born t).proc d).parent = (s.proc d).parent := by
    intro d hd
    by_cases hdt : d = t
    · rw [hdt, hpt]
    · rw [hpo d hdt hd]
  refine ⟨fun u hu => ?_, fun d p hp => ?_, fun u d hd => ?_, fun d p hd hp => ?_⟩
  · have hu' : s.nextTid < u := hu
    rw [hpo u (Nat.ne_of_gt (Nat.lt_trans hlt hu')) (Nat.ne_of_gt hu')]
    exact h.fresh u (Nat.le_of_lt hu')
  · by_cases hdc : d = s.nextTid
    · subst hdc
      rw [hpc'] at hp
      cases hp
      exact hlt
    · exact h.older d p (hpar d hdc ▸ hp)
  · by_cases hut : u = t
    · rw [hut, hpt] at hd
      cases hd
      rw [hut, hpc']
      rfl
    · by_cases huc : u = s.nextTid
      · rw [huc, hpc'] at hd
        cases hd
      · rw [hpo u hut huc] at hd
        have hp := h.targets u d hd
        rw [hpar d]
        · exact hp
        · rintro rfl
          rw [hnew.2] at hp
          cases hp
  · by_cases hdc : d = s.nextTid
    · subst hdc
      rw [hpc'] at hp
      cases hp
      rw [hpc', hpt, PC.towards_of_target rfl]
      exact ⟨rfl, rfl, rfl, rfl, rfl⟩
    · have hp' : (s.proc d).parent = some p := hpar d hdc ▸ hp
      have hpd : p < d := h.older d p hp'
      by_cases hdt : d = t
      · subst hdt
        rw [hpo p (Nat.ne_of_lt hpd) (Nat.ne_of_lt (Nat.lt_trans hpd hlt)), hpt]
        exact (h.pairs d p halive hp').moved (fun _ => rfl) (by rw [hpc]; rfl) (by rw [hpc]; rfl)
          (by rw [hpc]; rfl)
      · rw [hpo d hdt hdc] at hd ⊢
        have hold := h.pairs d p hd hp'
        by_cases hpt' : p = t
        · subst hpt'
          rw [hpc, PC.towards_of_ne (by simp [PC.target])] at hold
          rw [hpt, PC.towards_of_ne (by simpa [PC.target] using Ne.symm hdc)]
          exact hold
        · have hpn : p ≠ s.nextTid := by
            rintro rfl
            rw [(h.fresh d (Nat.le_of_lt hpd)).1] at hd
            cases hd
          rw [hpo p hpt' hpn]
          exact hold

end Calls

/-! ## 2. Every step -/

/-- The tid whose test `process_wait` is about to make. -/
def PC.tests : PC → Option Int
  | .waitGuard tid => some tid
  | _ => none

/-- **What the lock protocol asks of a step.** A child takes its own `lock_exit` only when its parent
    has done so in `process_execute`, and `process_wait` goes past its test only for a child of the
    caller. -/
def LockDiscipline (s : PSys) : PEvent → Prop
  | .run t _ =>
    ((s.proc t).pc = .exitExit .down →
      ∀ p ∈ (s.proc t).parent, ((s.proc p).pc.towards t).useExit ≠ .notYet) ∧
    ∀ tid ∈ (s.proc t).pc.tests,
      waitRefuses s tid = false → (s.proc tid.toNat).parent = some t
  | _ => True

instance (s : PSys) : (e : PEvent) → Decidable (LockDiscipline s e)
  | .run _ _ => inferInstanceAs (Decidable (_ ∧ _))
  | .execute _ _ | .wait _ _ | .exit _ _ | .terminate _ | .kill _ _ | .create _ _ | .load _ _ =>
    inferInstanceAs (Decidable True)

theorem sim_returnExec (s : PSys) (t c : Tid) (r : Int) :
    Sim (s.goto t .user) (returnExec s t c r) := by
  refine Sim.trans ((sim_modify s c ?_).goto t .user) (sim_goto _ t .user fun _ => rfl)
  exact fun _ => rfl

theorem sim_returnWait (s : PSys) (t : Tid) (tid r : Int) :
    Sim (s.goto t .user) (returnWait s t tid r) := by
  refine Sim.trans ((sim_modify s tid.toNat ?_).goto t .user) (sim_goto _ t .user fun _ => rfl)
  intro x
  split <;> rfl

variable {s : PSys} {c t : Tid} {g : ℕ}

/-- A call about `c` returns when the locks of `c` are as between two calls. -/
theorem Locks.returns (h : Locks s) (ht : (s.proc t).pc.target = some c)
    (kid : ∀ x, HandsOver c t x (s.proc t).pc → HandsOver c t x .user) :
    Locks (s.goto t .user) := by
  rw [← PSys.modify_id s c]
  refine h.call (h.targets t c ht) keeps_id (PC.outside_of_target ht) ?_ ⟨rfl, rfl, rfl⟩ ?_ ?_
  · intro d hd
    exact Option.some.inj (hd.symm.trans ht)
  · intro d hd
    cases hd
  · intro _ hq
    rw [PC.towards_of_target ht] at hq
    exact kid _ hq

/-- **`process_wait` goes past its test** for a child of the caller. -/
theorem Locks.begins {tid : Int} (h : Locks s) (hpc : (s.proc t).pc = .waitGuard tid)
    (hp : (s.proc c).parent = some t) : Locks (s.goto t (.waitWait c .lookup)) := by
  rw [← PSys.modify_id s c]
  refine h.call hp keeps_id (hpc ▸ ⟨rfl, rfl, rfl⟩) ?_ ⟨rfl, rfl, rfl⟩ ?_ ?_
  · intro d hd
    rw [hpc] at hd
    cases hd
  · intro d hd
    exact (Option.some.inj hd).symm
  · intro _ hq
    rw [hpc, PC.towards_of_ne (by simp [PC.target])] at hq
    rw [PC.towards_of_target rfl]
    exact { hq with }

variable {s' : PSys} {e : PEvent}

theorem runStep_locks (h : Locks s) (hs : runStep s t g = some s')
    (halive : (s.proc t).life = .alive) (hd : LockDiscipline s (.run t g)) : Locks s' := by
  have hon : s.onAllList t = true := (s.onAllList_iff t).mpr halive
  obtain ⟨htake, htest⟩ := hd
  unfold runStep at hs
  generalize hpc : (s.proc t).pc = pc at hs
  cases pc with
  | kernel | user | create | load | dead => cases hs
  | soonLookup c | execTest2 c | statusLookup c =>
    cases hs
    split
    · exact h.silent hpc rfl rfl rfl rfl rfl rfl
    · exact h.sim (sim_crash s _ t)
  | soonWrite c =>
    have hgo : Locks (s.goto t (.execExit c .lookup)) := h.silent hpc rfl rfl rfl rfl rfl rfl
    cases hs
    split
    · refine hgo.sim ((sim_modify s c ?_).goto t _)
      exact fun _ => rfl
    · exact hgo.sim ((sim_touch s c).goto t _)
  | execExit c a =>
    cases hs
    exact h.execExit hpc
  | execExec c a =>
    cases hs
    exact h.execExec hpc
  | execTest c =>
    cases hs
    split
    · exact h.silent hpc rfl rfl rfl rfl rfl rfl
    · refine (h.returns (c := c) (by rw [hpc]; rfl) fun x hq => ?_).sim (sim_returnExec s t c _)
      rw [hpc] at hq
      exact { hq with }
  | execRead c =>
    cases hs
    refine Locks.sim ?_ (sim_returnExec (s.touch c) t c _)
    refine (h.returns (c := c) (by rw [hpc]; rfl) fun x hq => ?_).sim ((sim_touch s c).goto t _)
    rw [hpc] at hq
    exact { hq with }
  | waitGuard tid =>
    cases hs
    split
    · refine Locks.sim (h.quiet ?_ rfl ?_ ?_ ?_) (sim_returnWait s t tid _) <;> rw [hpc] <;> rfl
    · exact h.begins hpc (htest tid (by rw [hpc]; rfl) (Bool.eq_false_iff.mpr ‹_›))
  | waitWait c a =>
    cases hs
    exact h.waitWait hpc
  | statusRead c =>
    cases hs
    refine Locks.sim ?_ ((sim_touch s c).goto t _)
    exact h.silent hpc rfl rfl rfl rfl rfl rfl
  | waitExit c status r =>
    cases hs
    exact h.waitExit hpc
  | waitExit2 c status a =>
    cases hs
    exact h.waitExit2 hpc
  | waitReturn c status =>
    cases hs
    refine (h.returns (c := c) (by rw [hpc]; rfl) fun x hq => ?_).sim (sim_returnWait s t c _)
    -- the call gets here only when the child is gone
    rw [hpc] at hq
    cases hq.before
  | startRel r | failRel r | exitExec r =>
    cases hs
    exact h.ownExec hpc hon (fun _ => ⟨rfl, rfl, rfl, rfl⟩) rfl rfl rfl rfl
  | failStatus =>
    cases hs
    have hgo : Locks (s.goto t .failSoon) := by
      refine h.quiet ?_ rfl ?_ ?_ ?_ <;> rw [hpc] <;> rfl
    refine hgo.sim ((sim_modify s t ?_).goto t _)
    exact fun _ => rfl
  | failSoon =>
    cases hs
    have hgo : Locks (s.goto t (.failRel .check)) := by
      refine h.quiet ?_ rfl ?_ ?_ ?_ <;> rw [hpc] <;> rfl
    refine hgo.sim ((sim_modify s t ?_).goto t _)
    exact fun _ => rfl
  | exitHeld =>
    cases hs
    exact h.exitHeld hpc
  | exitWait r =>
    cases hs
    exact h.ownWait hpc hon
  | exitTest =>
    cases hs
    split <;> refine h.quiet ?_ rfl ?_ ?_ ?_ <;> rw [hpc] <;> rfl
  | exitExit a =>
    cases hs
    exact h.ownExit hpc hon fun ha => htake (by rw [hpc, ha])
  | die | dieSoon =>
    cases hs
    exact h.dies halive (by rw [hpc]; rfl)

theorem startExit_locks {status : Option Int} {owed : Int} (h : Locks s)
    (hpc : (s.proc t).pc = .user) : Locks (startExit s t status owed) := by
  have hgo : Locks (s.goto t .exitHeld) := by
    refine h.quiet ?_ rfl ?_ ?_ ?_ <;> rw [hpc] <;> rfl
  exact hgo.sim (sim_goto s t _ fun _ => rfl)

/-- **Every step keeps the lock invariant** that meets `LockDiscipline`. -/
theorem pStep_locks (h : Locks s) (hs : pStep s e = some s') (hd : LockDiscipline s e) :
    Locks s' := by
  obtain ⟨_, halive, _, hs⟩ := pStep_can hs
  cases hs with
  | run hs => exact runStep_locks h hs halive hd
  | copied hpc | wait hpc => refine h.quiet ?_ rfl ?_ ?_ ?_ <;> rw [hpc] <;> rfl
  | noCopy => exact h.sim (sim_modify s _ fun _ => rfl)
  | exit hpc | terminate hpc | kill hpc => exact startExit_locks h hpc
  | created hpc => exact h.born hpc halive
  | noThread => exact h.sim (sim_crash s _ _)
  | @loaded t hpc =>
    have hgo : Locks (s.goto t (.startRel .check)) := by
      refine h.quiet ?_ rfl ?_ ?_ ?_ <;> rw [hpc] <;> rfl
    exact hgo.sim (sim_goto s t _ fun _ => rfl)
  | @failed t hpc =>
    have hgo : Locks (s.goto t .failStatus) := by
      refine h.quiet ?_ rfl ?_ ?_ ?_ <;> rw [hpc] <;> rfl
    exact hgo.sim (sim_goto s t _ fun _ => rfl)
  | @noFile t =>
    refine Locks.sim (h.sim (sim_modify s t ?_)) (sim_crash _ _ t)
    exact fun _ => rfl

theorem pInit_locks : Locks pInit := by
  have hparent : ∀ u, (pInit.proc u).parent = none := by
    intro u
    by_cases h1 : u = 1 <;> by_cases h2 : u = 2 <;> simp [pInit, noProc, newProc, h1, h2]
  have htarget : ∀ u, (pInit.proc u).pc.target = none := by
    intro u
    by_cases h1 : u = 1 <;> by_cases h2 : u = 2 <;>
      simp [pInit, noProc, newProc, h1, h2, PC.target]
  refine ⟨fun t ht => ⟨?_, hparent t⟩, fun c p hp => ?_, fun t c hc => ?_, fun c p _ hp => ?_⟩
  · have h3 : 3 ≤ t := ht
    have h1 : t ≠ 1 := by rintro rfl; exact absurd h3 (by decide)
    have h2 : t ≠ 2 := by rintro rfl; exact absurd h3 (by decide)
    simp [pInit, noProc, h1, h2]
  · simp [hparent c] at hp
  · simp [htarget t] at hc
  · simp [hparent c] at hp

/-! ## 3. Threads without a parent -/

/-- A live thread that no process created is "main" or the idle thread, which neither start from
    `start_process` nor exit. -/
def Rooted (s : PSys) : Prop :=
  ∀ t, (s.proc t).life = .alive → (s.proc t).parent = none →
    t ≤ 2 ∧ (s.proc t).pc.leaving = false ∧ (s.proc t).pc.starting = false

/-- In neither `thread_exit` nor `start_process`. -/
def PC.Calm (pc : PC) : Prop := pc.leaving = false ∧ pc.starting = false

theorem runStep_calm (hs : runStep s t g = some s') (hcalm : (s.proc t).pc.Calm) :
    (s'.proc t).pc.Calm := by
  have hgoto : ∀ (s₁ : PSys) (pc : PC), pc.Calm → ((s₁.goto t pc).proc t).pc.Calm := by
    intro s₁ pc hpc
    rw [((Still.refl s₁).goto t pc).here]
    exact hpc
  unfold runStep at hs
  generalize hpc : (s.proc t).pc = pc at hs
  cases pc with
  | kernel | user | create | load | dead => cases hs
  | soonLookup c | execTest2 c | statusLookup c =>
    cases hs
    split
    · exact hgoto s _ ⟨rfl, rfl⟩
    · exact hcalm
  | soonWrite c =>
    cases hs
    split <;> exact hgoto _ _ ⟨rfl, rfl⟩
  | execExit c a | execExec c a | waitWait c a | waitExit2 c status a =>
    cases hs
    obtain ⟨pc', hpc', hg⟩ := acquireStep_goes s t c _ g _ hpc
    rw [hg.here]
    rcases hpc' with rfl | ⟨b, rfl⟩ <;> exact ⟨rfl, rfl⟩
  | waitExit c status r =>
    cases hs
    obtain ⟨pc', hpc', hg⟩ := releaseStep_goes s t c _ g _ hpc
    rw [hg.here]
    rcases hpc' with rfl | ⟨b, rfl⟩ <;> exact ⟨rfl, rfl⟩
  | execTest c =>
    cases hs
    split
    · exact hgoto s _ ⟨rfl, rfl⟩
    · rw [view_pc ((sim_returnExec s t c _).proc t)]
      exact hgoto s _ ⟨rfl, rfl⟩
  | execRead c =>
    cases hs
    rw [view_pc ((sim_returnExec _ t c _).proc t)]
    exact hgoto _ _ ⟨rfl, rfl⟩
  | waitGuard tid =>
    cases hs
    split
    · rw [view_pc ((sim_returnWait s t tid _).proc t)]
      exact hgoto s _ ⟨rfl, rfl⟩
    · exact hgoto s _ ⟨rfl, rfl⟩
  | statusRead c =>
    cases hs
    exact hgoto _ _ ⟨rfl, rfl⟩
  | waitReturn c status =>
    cases hs
    rw [view_pc ((sim_returnWait s t c _).proc t)]
    exact hgoto s _ ⟨rfl, rfl⟩
  | startRel r | failStatus | failSoon | failRel r =>
    rw [hpc] at hcalm
    cases hcalm.2
  | exitHeld | exitExec r | exitWait r | exitTest | exitExit a | die | dieSoon =>
    rw [hpc] at hcalm
    cases hcalm.1

/-- "main" and the idle thread stay outside. -/
theorem pStep_calm (hs : pStep s e = some s') (h2 : e.thread ≤ 2)
    (hcalm : (s.proc e.thread).pc.Calm) : (s'.proc e.thread).pc.Calm := by
  obtain ⟨_, _, _, hs⟩ := pStep_can hs
  cases hs with
  | run hs => exact runStep_calm hs hcalm
  | @copied t =>
    show (PSys.proc _ t).pc.Calm
    rw [((Still.refl s).goto t .create).here]
    exact ⟨rfl, rfl⟩
  | noCopy => simpa [PEvent.thread] using hcalm
  | @wait t tid =>
    show (PSys.proc _ t).pc.Calm
    rw [((Still.refl s).goto t (.waitGuard tid)).here]
    exact ⟨rfl, rfl⟩
  | exit _ h | terminate _ h | kill _ h => exact absurd h (Nat.not_lt_of_le h2)
  | created => simp [PEvent.thread, PSys.born, PSys.goto, PC.Calm, PC.leaving, PC.starting]
  | noThread => exact hcalm
  | @loaded t hpc | @failed t hpc | @noFile t hpc =>
    have hload : (s.proc t).pc.Calm := hcalm
    rw [hpc] at hload
    cases hload.2

theorem pStep_rooted (hl : Locks s) (h : Rooted s) (hs : pStep s e = some s') : Rooted s' := by
  obtain ⟨_, halive, _, _⟩ := pStep_can hs
  intro u hu hp
  rcases pStep_others hs with ho | ⟨_, hb⟩
  · rw [ho.parent] at hp
    by_cases hut : u = e.thread
    · rw [hut] at hp ⊢
      obtain ⟨h2, hcalm⟩ := h e.thread halive hp
      exact ⟨h2, pStep_calm hs h2 hcalm⟩
    · have hown := ho.own u hut
      rw [own_field Proc.pc hown fun _ => rfl]
      exact h u ((own_field Proc.life hown fun _ => rfl) ▸ hu) hp
  · have hlt := lt_nextTid (fun u hu => (hl.fresh u hu).1) halive
    rw [hb] at hu hp ⊢
    by_cases hun : u = s.nextTid
    · rw [hun, born_child hlt] at hp
      cases hp
    · by_cases hut : u = e.thread
      · rw [hut, born_parent hlt] at hp ⊢
        exact ⟨(h e.thread halive hp).1, rfl, rfl⟩
      · rw [born_other hut hun] at hu hp ⊢
        exact h u hu hp

theorem pInit_rooted : Rooted pInit := by
  intro t ht _
  by_cases h1 : t = 1 <;> by_cases h2 : t = 2 <;>
    simp_all [pInit, noProc, newProc, PC.leaving, PC.starting]

end Pintos
