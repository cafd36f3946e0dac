/-
  Subject:   When no thread waits on a lock whose holder is dead.

  The one lock that can be left behind is a child's `lock_exit`, which the parent takes in
  `process_execute` and gives back in `process_wait` only; `thread_exit` releases nothing for the
  children.

  * `Guarded`: as long as a child that was loaded finds its `lock_exit` in the parent's hands, the
    parent is alive and not on its way out.
  * **`no_dead_holder`**: in every run in which a process leaves only after it has waited for its
    children (`HandsBack`), and which keeps to the lock protocol, each thread is blocked on a lock of
    a live thread that is free or held by a live thread.
-/
import Pintos.Userprog.Sleepers

namespace Pintos

open Lib

/-! ## 1. The invariant -/

variable {c q t : Tid} {s s' : PSys} {a : Acq}

namespace PC

/-- In `thread_exit`, after the test of `exit_soon` has found it clear. -/
def pastSoon : PC → Bool
  | .exitExit _ | .die => true
  | _ => false

theorem pastSoon_of_target {pc : PC} (h : pc.target = some c) : pc.pastSoon = false := by
  cases pc <;> first | rfl | simp [target] at h

end PC

structure Guarded (s : PSys) : Prop where
  guardian : ∀ c p, (s.proc c).life = .alive → (s.proc c).parent = some p →
    (s.proc c).exitSoon = false → ((s.proc c).lock .exit).holder = some p →
    (s.proc p).life = .alive ∧ (s.proc p).pc.leaving = false
  soon : ∀ t, (s.proc t).pc.pastSoon = true → (s.proc t).exitSoon = false
  young : ∀ c p, (s.proc c).parent = some p → (s.proc p).pc.starting = false

/-- **A step of thread `t`**, with what it may do to the locks of the children. -/
theorem Guarded.update (h : Guarded s) (halive : (s.proc t).life = .alive)
    (life : ∀ u, (s'.proc u).life = (s.proc u).life)
    (parent : ∀ u, (s'.proc u).parent = (s.proc u).parent)
    (pc : ∀ u, u ≠ t → (s'.proc u).pc = (s.proc u).pc)
    (clear : ∀ u, u ≠ t → (s'.proc u).exitSoon = true → (s.proc u).exitSoon = true)
    (held : ∀ c p, (s.proc c).parent = some p → (s'.proc c).exitSoon = false →
      ((s'.proc c).lock .exit).holder = some p →
      ((s.proc c).exitSoon = false ∧ ((s.proc c).lock .exit).holder = some p) ∨
        (p = t ∧ (s'.proc t).pc.leaving = false))
    (leaves : (s'.proc t).pc.leaving = true → (s.proc t).pc.leaving = true ∨
      (s.proc t).pc.starting = true ∨
      ∀ c, (s.proc c).life = .alive → (s.proc c).parent = some t →
        (s.proc c).exitSoon = false → ((s.proc c).lock .exit).holder ≠ some t)
    (past : (s'.proc t).pc.pastSoon = true → (s'.proc t).exitSoon = false)
    (starts : (s'.proc t).pc.starting = true → (s.proc t).pc.starting = true) : Guarded s' := by
  refine ⟨fun c p hc hp hsoon hh => ?_, fun u hu => ?_, fun c p hp => ?_⟩
  · rw [life] at hc ⊢
    rw [parent] at hp
    rcases held c p hp hsoon hh with ⟨hsoon', hh'⟩ | ⟨rfl, hl⟩
    · obtain ⟨hpa, hpl⟩ := h.guardian c p hc hp hsoon' hh'
      refine ⟨hpa, ?_⟩
      by_cases hpt : p = t
      · subst hpt
        by_contra hl
        rcases leaves (by simpa using hl) with hl' | hl' | hl'
        · rw [hpl] at hl'
          cases hl'
        · rw [h.young c p hp] at hl'
          cases hl'
        · exact hl' c hc hp hsoon' hh'
      · rw [pc p hpt]
        exact hpl
    · exact ⟨halive, hl⟩
  · by_cases hut : u = t
    · subst hut
      exact past hu
    · rw [pc u hut] at hu
      have hs := h.soon u hu
      by_contra hne
      rw [clear u hut (by simpa using hne)] at hs
      cases hs
  · rw [parent] at hp
    have hy := h.young c p hp
    by_cases hpt : p = t
    · subst hpt
      by_contra hs'
      rw [starts (by simpa using hs')] at hy
      cases hy
    · rw [pc p hpt]
      exact hy

/-! ## 2. Who holds a lock after a step -/

/-- A lock operation stores `o` as the holder of its lock, or changes no holder. -/
theorem LockMove.holder {g : ℕ} {waits : Prop} {o : Option Tid} {pc : PC}
    (h : LockMove s t c l g waits o pc s') (d : Tid) (l' : LockName) :
    ((s'.proc d).lock l').holder = ((s.proc d).lock l').holder ∨
      (d = c ∧ l' = l ∧ ((s'.proc d).lock l').holder = o) := by
  cases h with
  | fails hs => rcases hs with rfl | rfl <;> simp [PSys.crash]
  | goes hs => rcases hs with rfl | rfl <;> simp [goto_lock]
  | sets _ _ _ hh =>
    rw [goto_lock, setLock_at]
    split
    · rename_i heq
      rw [heq.1, heq.2]
      exact hh.imp_right fun ho => ⟨rfl, rfl, ho⟩
    · exact .inl rfl
  | blocks =>
    rw [block_lock, setLock_at]
    split <;> simp_all
  | strands => simp [block_lock]
  | ups =>
    rw [goto_lock, plockUp_at]
    split <;> simp_all

/-! ## 3. Every step -/

section Steps

variable {s s' : PSys} {t c : Tid} {l : LockName} {g : ℕ} {done pc' : PC} (h : Guarded s)
  (halive : (s.proc t).life = .alive)
include h halive

/-- A step that moves and leaves the holders of `lock_exit` alone or clears them. -/
theorem Guarded.goes (hg : Goes s s' t pc')
    (held : ∀ d p, (s.proc d).parent = some p → ((s'.proc d).lock .exit).holder = some p →
      ((s.proc d).lock .exit).holder = some p ∨ (p = t ∧ pc'.leaving = false))
    (leaves : pc'.leaving = true → (s.proc t).pc.leaving = true ∨ (s.proc t).pc.starting = true)
    (past : pc'.pastSoon = true → (s.proc t).exitSoon = false)
    (starts : pc'.starting = true → (s.proc t).pc.starting = true) : Guarded s' := by
  have hsoon (u) : (s'.proc u).exitSoon = (s.proc u).exitSoon :=
    data_field Proc.exitSoon (hg.data u) fun _ => rfl
  refine h.update halive hg.life hg.parent (fun u hu => hg.there hu) ?_ ?_ ?_ ?_ ?_
  · intro u _ hu
    rw [← hsoon]
    exact hu
  · intro d p hp hs hh
    rw [hsoon] at hs
    rw [hg.here]
    rcases held d p hp hh with hh' | hh'
    · exact .inl ⟨hs, hh'⟩
    · exact .inr hh'
  · rw [hg.here]
    intro hl
    rcases leaves hl with h1 | h1
    · exact .inl h1
    · exact .inr (.inl h1)
  · rw [hg.here, hsoon]
    exact past
  · rw [hg.here]
    exact starts

theorem Guarded.goto
    (leaves : pc'.leaving = true → (s.proc t).pc.leaving = true ∨ (s.proc t).pc.starting = true)
    (past : pc'.pastSoon = true → (s.proc t).exitSoon = false)
    (starts : pc'.starting = true → (s.proc t).pc.starting = true) : Guarded (s.goto t pc') :=
  h.goes halive ((Still.refl s).goto t pc') (fun d p _ hh => .inl (by rwa [goto_lock] at hh)) leaves
    past starts

theorem Guarded.calm (hl : pc'.leaving = false) (hst : pc'.starting = false)
    (hps : pc'.pastSoon = false) : Guarded (s.goto t pc') := by
  refine h.goto halive (fun h1 => ?_) (fun h1 => ?_) fun h1 => ?_
  · rw [hl] at h1
    cases h1
  · rw [hps] at h1
    cases h1
  · rw [hst] at h1
    cases h1

theorem Guarded.acquire {k : Acq → PC} (hpc : (s.proc t).pc = k a) (hk : ∀ b, (k b).target = some c)
    (hd : done.target = some c) : Guarded (acquireStep s t c l g k done a) := by
  obtain ⟨pc', hpc', hm⟩ := acquireStep_moves s t c l g done hpc
  have htarget : pc'.target = some c := by
    rcases hpc' with rfl | ⟨b, rfl⟩
    · exact hd
    · exact hk b
  obtain ⟨hl, hst⟩ := PC.quiet_of_target htarget
  have hps := PC.pastSoon_of_target htarget
  refine h.goes halive hm.toGoes (fun d p _ hh => ?_) (fun h1 => ?_) (fun h1 => ?_) fun h1 => ?_
  · rcases hm.holder d .exit with h1 | ⟨_, _, h1⟩
    · exact .inl (h1 ▸ hh)
    · exact .inr ⟨Option.some.inj (hh.symm.trans h1), hl⟩
  · rw [hl] at h1
    cases h1
  · rw [hps] at h1
    cases h1
  · rw [hst] at h1
    cases h1

theorem Guarded.acquireSelf (hlocks : Locks s) (hpc : (s.proc t).pc = .exitExit a) :
    Guarded (acquireStep s t t .exit g .exitExit .die a) := by
  obtain ⟨pc', hpc', hm⟩ := acquireStep_moves s t t .exit g .die hpc
  have hsoon : (s.proc t).exitSoon = false := h.soon t (by rw [hpc]; rfl)
  refine h.goes halive hm.toGoes (fun d p hp hh => ?_) (fun _ => .inl (by rw [hpc]; rfl))
    (fun _ => hsoon) fun h1 => ?_
  · rcases hm.holder d .exit with h1 | ⟨rfl, _, h1⟩
    · exact .inl (h1 ▸ hh)
    · have hpd : p = d := Option.some.inj (hh.symm.trans h1)
      exact absurd hpd (Nat.ne_of_lt (hlocks.older d p hp))
  · rcases hpc' with rfl | ⟨b, rfl⟩ <;> cases h1

theorem Guarded.release {k : Rel → PC} {r : Rel} (hpc : (s.proc t).pc = k r)
    (hto : ∀ pc', (pc' = done ∨ ∃ b, pc' = k b) →
      (pc'.leaving = true → (s.proc t).pc.leaving = true ∨ (s.proc t).pc.starting = true) ∧
      pc'.pastSoon = false ∧ (pc'.starting = true → (s.proc t).pc.starting = true)) :
    Guarded (releaseStep s t c l g k done r) := by
  obtain ⟨pc', hpc', hm⟩ := releaseStep_moves s t c l g done hpc
  obtain ⟨hl, hps, hst⟩ := hto pc' hpc'
  refine h.goes halive hm.toGoes (fun d p _ hh => ?_) hl (fun h1 => ?_) hst
  · rcases hm.holder d .exit with h1 | ⟨_, _, h1⟩
    · exact .inl (h1 ▸ hh)
    · rw [h1] at hh
      cases hh
  · rw [hps] at h1
    cases h1

/-- **A death**: the thread was on its way out, so no child counts on it. -/
theorem Guarded.dies (hleaving : (s.proc t).pc.leaving = true) : Guarded (dieStep s t g) := by
  unfold dieStep
  dsimp only
  split
  · generalize hs1 : plockUp _ _ _ _ = s₁
    have hstill : Still s s₁ := hs1 ▸ (Still.setLock s t _ _).trans (.plockUp _ t _ g)
    have hlock : ∀ d, (s₁.proc d).lock .exit = (s.proc d).lock .exit := by
      intro d
      rw [← hs1, plockUp_lock _ _ (by simp), setLock_lock _ _ (by simp)]
    have hlife (u) : (s₁.proc u).life = (s.proc u).life := data_life (hstill.data u)
    have hparent (u) : (s₁.proc u).parent = (s.proc u).parent := data_parent (hstill.data u)
    have hsoon (u) : (s₁.proc u).exitSoon = (s.proc u).exitSoon :=
      data_field Proc.exitSoon (hstill.data u) fun _ => rfl
    have hother : ∀ u, u ≠ t → (s₁.modify t fun y => { y with life := .freed, pc := .dead }).proc u =
        s₁.proc u := by
      intro u hu
      simp [hu]
    have hself : (s₁.modify t fun y => { y with life := .freed, pc := .dead }).proc t =
        { s₁.proc t with life := .freed, pc := .dead } := by
      simp
    refine ⟨fun d p hd hp hs hh => ?_, fun u hu => ?_, fun d p hp => ?_⟩
    · have hdt : d ≠ t := by
        rintro rfl
        rw [hself] at hd
        cases hd
      rw [hother d hdt] at hd hp hs hh
      rw [hlife] at hd
      rw [hparent] at hp
      rw [hsoon] at hs
      rw [hlock] at hh
      obtain ⟨hpa, hpl⟩ := h.guardian d p hd hp hs hh
      have hpt : p ≠ t := by
        rintro rfl
        rw [hleaving] at hpl
        cases hpl
      rw [hother p hpt, hlife, hstill.pc]
      exact ⟨hpa, hpl⟩
    · have hut : u ≠ t := by
        rintro rfl
        rw [hself] at hu
        cases hu
      rw [hother u hut] at hu ⊢
      rw [hstill.pc] at hu
      rw [hsoon]
      exact h.soon u hu
    · have hp' : (s.proc d).parent = some p := by
        rw [← hparent, ← hp]
        by_cases hdt : d = t
        · rw [hdt, hself]
        · rw [hother d hdt]
      by_cases hpt : p = t
      · rw [hpt, hself]
        rfl
      · rw [hother p hpt, hstill.pc]
        exact h.young d p hp'
  · refine h.goes halive ((Still.crash s _ t).stays t) (fun d p _ hh => .inl hh) .inl (h.soon t) ?_
    exact fun h1 => h1

theorem Guarded.born (hlocks : Locks s) : Guarded (s.born t) := by
  have hlt : t < s.nextTid := lt_nextTid (fun u hu => (hlocks.fresh u hu).1) halive
  have hpt := born_parent hlt
  have hnew := born_child hlt
  have hold : ∀ u, u ≠ s.nextTid → ((s.born t).proc u).parent = (s.proc u).parent ∧
      ((s.born t).proc u).lock = (s.proc u).lock ∧ ((s.born t).proc u).life = (s.proc u).life ∧
      ((s.born t).proc u).exitSoon = (s.proc u).exitSoon := by
    intro u hu
    by_cases hut : u = t
    · rw [hut, hpt]
      exact ⟨rfl, rfl, rfl, rfl⟩
    · rw [born_other hut hu]
      exact ⟨rfl, rfl, rfl, rfl⟩
  -- the new thread is nobody's parent yet
  have hnop : ∀ d p, (s.proc d).parent = some p → p ≠ s.nextTid := by
    rintro d p hp rfl
    rw [(hlocks.fresh d (Nat.le_of_lt (hlocks.older d _ hp))).2] at hp
    cases hp
  refine ⟨fun d p hd hp hs hh => ?_, fun u hu => ?_, fun d p hp => ?_⟩
  · by_cases hdn : d = s.nextTid
    · rw [hdn, hnew] at hh
      cases hh
    · rw [(hold d hdn).2.2.1] at hd
      rw [(hold d hdn).1] at hp
      rw [(hold d hdn).2.2.2] at hs
      rw [(hold d hdn).2.1] at hh
      obtain ⟨hpa, hpl⟩ := h.guardian d p hd hp hs hh
      by_cases hpt' : p = t
      · rw [hpt', hpt]
        exact ⟨halive, rfl⟩
      · rw [born_other hpt' (hnop d p hp)]
        exact ⟨hpa, hpl⟩
  · by_cases hun : u = s.nextTid
    · rw [hun, hnew] at hu
      cases hu
    · by_cases hut : u = t
      · rw [hut, hpt] at hu
        cases hu
      · rw [born_other hut hun] at hu ⊢
        exact h.soon u hu
  · by_cases hdn : d = s.nextTid
    · rw [hdn, hnew] at hp
      cases hp
      rw [hpt]
      rfl
    · rw [(hold d hdn).1] at hp
      by_cases hpt' : p = t
      · rw [hpt', hpt]
        rfl
      · rw [born_other hpt' (hnop d p hp)]
        exact h.young d p hp

end Steps

theorem Guarded.sim (h : Guarded s) (hs : Sim s s')
    (hsoon : ∀ u, (s'.proc u).exitSoon = (s.proc u).exitSoon) : Guarded s' := by
  have life (u) : (s'.proc u).life = (s.proc u).life := view_life (hs.proc u)
  have parent (u) : (s'.proc u).parent = (s.proc u).parent := view_parent (hs.proc u)
  have pc (u) : (s'.proc u).pc = (s.proc u).pc := view_pc (hs.proc u)
  have holder (u) : ((s'.proc u).lock .exit).holder = ((s.proc u).lock .exit).holder :=
    congrArg Prod.snd (view_pair (hs.proc u) .exit)
  refine ⟨fun d p hd hp hs hh => ?_, fun u hu => ?_, fun d p hp => ?_⟩
  · rw [life, pc]
    exact h.guardian d p (life d ▸ hd) (parent d ▸ hp) (hsoon d ▸ hs) (holder d ▸ hh)
  · rw [hsoon]
    exact h.soon u (pc u ▸ hu)
  · rw [pc]
    exact h.young d p (parent d ▸ hp)

theorem returnExec_soon (s : PSys) (t c : Tid) (r : Int) (u : Tid) :
    ((returnExec s t c r).proc u).exitSoon = (s.proc u).exitSoon := by
  unfold returnExec
  rw [modify_field Proc.exitSoon, modify_field Proc.exitSoon]
  · exact fun _ => rfl
  · exact fun _ => rfl

theorem goto_soon (s : PSys) (t : Tid) (pc : PC) (u : Tid) :
    ((s.goto t pc).proc u).exitSoon = (s.proc u).exitSoon := by
  refine modify_field Proc.exitSoon s t ?_ u
  exact fun _ => rfl

/-- `process_execute` clears the child's `exit_soon`: its caller is alive and not leaving. -/
theorem Guarded.soonWrite (h : Guarded s) (hl : Locks s) (halive : (s.proc t).life = .alive)
    (hpc : (s.proc t).pc = .soonWrite c) :
    Guarded ((s.modify c fun x => { x with exitSoon := false }).goto t (.execExit c .lookup)) := by
  have hp := hl.targets t c (by rw [hpc]; rfl)
  have hne : t ≠ c := Nat.ne_of_lt (hl.older c t hp)
  generalize hs' : PSys.goto _ _ _ = s'
  have hpt : s'.proc t = { s.proc t with pc := .execExit c .lookup } := by
    simp [← hs', PSys.goto, hne]
  have hpo : ∀ u, u ≠ t → s'.proc u = if u = c then { s.proc c with exitSoon := false }
      else s.proc u := by
    intro u hu
    simp [← hs', PSys.goto, hu]
  have same : ∀ {α : Type} (φ : Proc → α), (∀ x pc, φ { x with pc := pc } = φ x) →
      (∀ x b, φ { x with exitSoon := b } = φ x) → ∀ u, φ (s'.proc u) = φ (s.proc u) := by
    intro α φ h1 h2 u
    by_cases hu : u = t
    · rw [hu, hpt, h1]
    · rw [hpo u hu]
      split
      · rename_i huc
        rw [huc, h2]
      · rfl
  refine h.update halive (same Proc.life (fun _ _ => rfl) fun _ _ => rfl)
    (same Proc.parent (fun _ _ => rfl) fun _ _ => rfl) (fun u hu => ?_) (fun u hu hsoon => ?_)
    (fun d p hd hsoon hh => ?_) ?_ ?_ ?_
  · rw [hpo u hu]
    split
    · rename_i huc
      rw [huc]
    · rfl
  · rw [hpo u hu] at hsoon
    split at hsoon
    · cases hsoon
    · exact hsoon
  · rw [same Proc.lock (fun _ _ => rfl) fun _ _ => rfl] at hh
    by_cases hdc : d = c
    · refine .inr ⟨?_, by rw [hpt]; rfl⟩
      rw [hdc] at hd
      exact Option.some.inj (hd.symm.trans hp)
    · refine .inl ⟨?_, hh⟩
      by_cases hdt : d = t
      · rw [hdt, hpt] at hsoon
        rw [hdt]
        exact hsoon
      · rw [hpo d hdt, if_neg hdc] at hsoon
        exact hsoon
  all_goals
    rw [hpt]
    intro h1
    cases h1

/-- `start_process` sets its own `exit_soon` when loading has failed. -/
theorem Guarded.failSoon (h : Guarded s) (halive : (s.proc t).life = .alive)
    (hpc : (s.proc t).pc = .failSoon) :
    Guarded ((s.modify t fun x => { x with exitSoon := true }).goto t (.failRel .check)) := by
  rw [PSys.goto, PSys.modify_modify]
  generalize hs' : PSys.modify _ _ _ = s'
  have hpt : s'.proc t = { s.proc t with exitSoon := true, pc := .failRel .check } := by
    simp [← hs']
  have hpo : ∀ u, u ≠ t → s'.proc u = s.proc u := by
    intro u hu
    simp [← hs', hu]
  have same : ∀ {α : Type} (φ : Proc → α),
      (∀ x, φ { x with exitSoon := true, pc := .failRel .check } = φ x) →
      ∀ u, φ (s'.proc u) = φ (s.proc u) := by
    intro α φ hφ u
    by_cases hu : u = t
    · rw [hu, hpt, hφ]
    · rw [hpo u hu]
  refine h.update halive (same Proc.life fun _ => rfl) (same Proc.parent fun _ => rfl)
    (fun u hu => by rw [hpo u hu]) (fun u hu hsoon => by rwa [hpo u hu] at hsoon)
    (fun d p hd hsoon hh => ?_) ?_ ?_ fun _ => by rw [hpc]; rfl
  · by_cases hdt : d = t
    · rw [hdt, hpt] at hsoon
      cases hsoon
    · rw [hpo d hdt] at hsoon hh
      exact .inl ⟨hsoon, hh⟩
  all_goals
    rw [hpt]
    intro h1
    cases h1

theorem runStep_guarded {g : ℕ} (hl : Locks s) (h : Guarded s) (hs : runStep s t g = some s')
    (halive : (s.proc t).life = .alive) : Guarded s' := by
  have huser : Guarded (s.goto t .user) := h.calm halive rfl rfl rfl
  have hcrash : ∀ e, Guarded (s.crash e t) := fun e =>
    h.goes halive ((Still.crash s e t).stays t) (fun _ _ _ hh => .inl hh) .inl (h.soon t)
      fun h1 => h1
  -- a call that reads the child's page, whether or not it is still there
  have htouch : ∀ c pc', PC.leaving pc' = false → pc'.starting = false → pc'.pastSoon = false →
      Guarded ((s.touch c).goto t pc') := by
    intro c pc' h1 h2 h3
    have hgo : Guarded (s.goto t pc') := h.calm halive h1 h2 h3
    refine hgo.sim ((sim_touch s c).goto t pc') fun u => ?_
    rw [goto_soon, goto_soon, PSys.proc_touch]
  unfold runStep at hs
  generalize hpc : (s.proc t).pc = pc at hs
  cases pc with
  | kernel | user | create | load | dead => cases hs
  | soonLookup c | execTest2 c | statusLookup c =>
    cases hs
    split
    · exact h.calm halive rfl rfl rfl
    · exact hcrash _
  | soonWrite c =>
    cases hs
    split
    · exact h.soonWrite hl halive hpc
    · exact htouch c _ rfl rfl rfl
  | execExit c a | execExec c a | waitWait c a | waitExit2 c status a =>
    cases hs
    exact h.acquire halive hpc (fun _ => rfl) rfl
  | execTest c =>
    cases hs
    split
    · exact h.calm halive rfl rfl rfl
    · refine huser.sim (sim_returnExec s t c _) fun u => ?_
      rw [returnExec_soon, goto_soon]
  | execRead c =>
    cases hs
    refine (htouch c .user rfl rfl rfl).sim (sim_returnExec _ t c _) fun u => ?_
    rw [returnExec_soon, goto_soon]
  | waitGuard tid =>
    cases hs
    split
    · refine huser.sim (sim_returnWait s t tid _) fun u => ?_
      rw [returnWait_field Proc.exitSoon _ _ _ _ (fun _ _ => rfl) fun _ => rfl, goto_soon]
    · exact h.calm halive rfl rfl rfl
  | statusRead c =>
    cases hs
    exact htouch c _ rfl rfl rfl
  | waitReturn c status =>
    cases hs
    refine huser.sim (sim_returnWait s t c _) fun u => ?_
    rw [returnWait_field Proc.exitSoon _ _ _ _ (fun _ _ => rfl) fun _ => rfl, goto_soon]
  | waitExit c status r | startRel r | failRel r | exitExec r | exitWait r =>
    cases hs
    refine h.release halive hpc ?_
    rw [hpc]
    rintro pc' (rfl | ⟨b, rfl⟩) <;> simp [PC.leaving, PC.starting, PC.pastSoon]
  | failStatus =>
    have hgo : Guarded (s.goto t .failSoon) := by
      refine h.goto halive ?_ ?_ ?_ <;> simp [PC.leaving, PC.pastSoon, PC.starting, hpc]
    cases hs
    refine hgo.sim ((sim_modify s t ?_).goto t _) fun u => ?_
    · exact fun _ => rfl
    · rw [goto_soon, goto_soon]
      refine modify_field Proc.exitSoon s t ?_ u
      exact fun _ => rfl
  | failSoon =>
    cases hs
    exact h.failSoon halive hpc
  | exitHeld =>
    cases hs
    refine h.goto halive (fun _ => .inl (by rw [hpc]; rfl)) ?_ ?_ <;> split <;>
      simp [PC.pastSoon, PC.starting]
  | exitTest =>
    cases hs
    refine h.goto halive (fun _ => .inl (by rw [hpc]; rfl)) ?_ ?_ <;> split <;>
      simp_all [PC.pastSoon, PC.starting]
  | exitExit a =>
    cases hs
    exact h.acquireSelf halive hl hpc
  | die | dieSoon =>
    cases hs
    exact h.dies halive (by rw [hpc]; rfl)

/-- **The condition on leaving.** A process leaves only when it holds the `lock_exit` of no child
    that was loaded: it has waited for each of them. -/
def HandsBack (s : PSys) : PEvent → Prop
  | .exit t _ | .terminate t | .kill t _ =>
    ∀ c < s.nextTid, (s.proc c).life = .alive → (s.proc c).parent = some t →
      (s.proc c).exitSoon = false → ((s.proc c).lock .exit).holder ≠ some t
  | _ => True

instance (s : PSys) : (e : PEvent) → Decidable (HandsBack s e)
  | .exit t _ | .terminate t | .kill t _ => inferInstanceAs
      (Decidable (∀ c < s.nextTid, (s.proc c).life = .alive → (s.proc c).parent = some t →
        (s.proc c).exitSoon = false → ((s.proc c).lock .exit).holder ≠ some t))
  | .run _ _ | .execute _ _ | .wait _ _ | .create _ _ | .load _ _ => inferInstanceAs (Decidable True)

theorem startExit_guarded {status : Option Int} {owed : Int} (hl : Locks s) (h : Guarded s)
    (halive : (s.proc t).life = .alive)
    (hb : ∀ c < s.nextTid, (s.proc c).life = .alive → (s.proc c).parent = some t →
      (s.proc c).exitSoon = false → ((s.proc c).lock .exit).holder ≠ some t) :
    Guarded (startExit s t status owed) := by
  generalize hs' : startExit s t status owed = s'
  have hpt : s'.proc t = { s.proc t with
      pc := .exitHeld
      exitStatus := status.getD (s.proc t).exitStatus
      ended := some owed } := by
    simp [← hs', startExit]
  have hpo : ∀ u, u ≠ t → s'.proc u = s.proc u := by
    intro u hu
    simp [← hs', startExit, hu]
  have same : ∀ {α : Type} (φ : Proc → α),
      (∀ x a b, φ { x with pc := .exitHeld, exitStatus := a, ended := b } = φ x) →
      ∀ u, φ (s'.proc u) = φ (s.proc u) := by
    intro α φ hφ u
    by_cases hu : u = t
    · rw [hu, hpt, hφ]
    · rw [hpo u hu]
  have hsoon := same Proc.exitSoon fun _ _ _ => rfl
  refine h.update halive (same Proc.life fun _ _ _ => rfl) (same Proc.parent fun _ _ _ => rfl)
    (fun u hu => by rw [hpo u hu]) (fun u _ hu => hsoon u ▸ hu) (fun d p _ hs hh => ?_)
    (fun _ => .inr (.inr fun c hc => hb c ?_ hc)) ?_ ?_
  · rw [hsoon] at hs
    rw [same Proc.lock fun _ _ _ => rfl] at hh
    exact .inl ⟨hs, hh⟩
  · exact lt_nextTid (fun u hu => (hl.fresh u hu).1) hc
  all_goals
    rw [hpt]
    intro h1
    cases h1

theorem pStep_guarded {e : PEvent} (hl : Locks s) (h : Guarded s) (hs : pStep s e = some s')
    (hb : HandsBack s e) : Guarded s' := by
  obtain ⟨_, halive, _, hs⟩ := pStep_can hs
  cases hs with
  | run hs => exact runStep_guarded hl h hs halive
  | copied | wait => exact h.calm halive rfl rfl rfl
  | @noCopy t =>
    refine h.sim (sim_modify s t fun _ => rfl) fun u => ?_
    refine modify_field Proc.exitSoon s t ?_ u
    exact fun _ => rfl
  | exit | terminate | kill => exact startExit_guarded hl h halive hb
  | created => exact h.born halive hl
  | @noThread t => exact h.sim (sim_crash s _ t) fun _ => rfl
  | @loaded t hpc =>
    have hgo : Guarded (s.goto t (.startRel .check)) := by
      refine h.goto halive ?_ ?_ ?_ <;> simp [PC.leaving, PC.pastSoon, PC.starting, hpc]
    refine hgo.sim (sim_goto s t _ fun _ => rfl) fun u => ?_
    rw [goto_soon]
    refine modify_field Proc.exitSoon s t ?_ u
    exact fun _ => rfl
  | @failed t hpc =>
    have hgo : Guarded (s.goto t .failStatus) := by
      refine h.goto halive ?_ ?_ ?_ <;> simp [PC.leaving, PC.pastSoon, PC.starting, hpc]
    refine hgo.sim (sim_goto s t _ fun _ => rfl) fun u => ?_
    rw [goto_soon]
    refine modify_field Proc.exitSoon s t ?_ u
    exact fun _ => rfl
  | @noFile t =>
    refine h.sim (Sim.trans (sim_modify s t ?_) (sim_crash _ _ t)) fun u => ?_
    · exact fun _ => rfl
    · rw [PSys.proc_crash]
      refine modify_field Proc.exitSoon s t ?_ u
      exact fun _ => rfl

theorem pInit_guarded : Guarded pInit := by
  have hproc : ∀ u, (pInit.proc u).parent = none ∧ (pInit.proc u).pc.pastSoon = false := by
    intro u
    by_cases h1 : u = 1 <;> by_cases h2 : u = 2 <;>
      simp [pInit, noProc, newProc, h1, h2, PC.pastSoon]
  refine ⟨fun c p _ hp => ?_, fun u hu => ?_, fun c p hp => ?_⟩
  · rw [(hproc c).1] at hp
    cases hp
  · rw [(hproc u).2] at hu
    cases hu
  · rw [(hproc c).1] at hp
    cases hp

/-! ## 4. Holders are alive -/

/-- Everything that a thread can be blocked on is free or in live hands. -/
theorem holder_alive (hl : Locks s) (hr : Rooted s) (hsl : Sleepers True s) (hg : Guarded s)
    {l : LockName} (hb : (s.proc q).blockedOn = some (c, l)) : ((s.proc c).lock l).holder = none ∨
      ∃ p, ((s.proc c).lock l).holder = some p ∧ (s.proc p).life = .alive := by
  obtain ⟨halive, _, hat⟩ := hsl.blocked q c l hb
  have hc := halive trivial
  have own : ((s.proc c).lock l).holder = none ∨ ((s.proc c).lock l).holder = some c →
      ((s.proc c).lock l).holder = none ∨
        ∃ p, ((s.proc c).lock l).holder = some p ∧ (s.proc p).life = .alive := by
    rintro (h1 | h1)
    · exact .inl h1
    · exact .inr ⟨c, h1, hc⟩
  rcases sleepsOn_cases hat with ⟨hpc, rfl, rfl⟩ | ⟨hpc, rfl⟩ | ⟨htarget, hne⟩
  · -- the child waits for the parent to give `lock_exit` back
    cases hp : (s.proc c).parent with
    | none =>
      have hroot := (hr c hc hp).2.1
      rw [hpc] at hroot
      cases hroot
    | some p =>
      have he := (hl.pairs c p hc hp).exit
      rw [hpc] at he
      have hx : ((s.proc c).lock .exit).pair.2 = ((s.proc c).lock .exit).holder := rfl
      cases hu : ((s.proc p).pc.towards c).useExit <;> rw [hu] at he <;>
        rw [← hx, ← Option.some.inj he]
      · exact .inl rfl
      · exact .inl rfl
      · refine .inr ⟨p, rfl, (hg.guardian c p hc hp (hg.soon c (by rw [hpc]; rfl)) ?_).1⟩
        rw [← hx, ← Option.some.inj he]
      · exact .inl rfl
      · exact .inl rfl
  · have htarget : (s.proc q).pc.target = some c := by rw [hpc]; rfl
    have he := (hl.pairs c q hc (hl.targets q c htarget)).exit
    rw [PC.towards_of_target htarget, hpc] at he
    have hx : ((s.proc c).lock .exit).pair.2 = ((s.proc c).lock .exit).holder := rfl
    left
    cases ho : (s.proc c).pc.ownExit <;> rw [ho] at he
    · rw [← hx, ← Option.some.inj he]
    · cases he
    · cases he
  · have hpair := hl.pairs c q hc (hl.targets q c htarget)
    rw [PC.towards_of_target htarget] at hpair
    apply own
    cases l with
    | exec =>
      have he := hpair.exec
      rw [sleepsOn_exec hat] at he
      exact handOver_waiting he
    | wait =>
      have he := hpair.wait
      rw [sleepsOn_wait hat] at he
      exact handOver_waiting he
    | exit => exact absurd rfl hne
    | exit2 => exact .inr (congrArg Prod.snd hpair.exit2)

/-- The three conditions together. -/
def Orderly (s : PSys) (e : PEvent) : Prop :=
  HandsBack s e ∧ LockDiscipline s e ∧ WakesOnGarbage s e

instance (s : PSys) (e : PEvent) : Decidable (Orderly s e) := inferInstanceAs (Decidable (_ ∧ _))

/-- Thread `t` starts the program that becomes thread `c`, and has its tid. -/
def starts (t c : Tid) : List PEvent :=
  [.execute t true, .create t true, .load c .success] ++ steps 3 c 0 ++ steps 13 t 0

/-- "main" starts thread 3, which starts thread 4 and exits without waiting for it; "main" waits for
    thread 3, so that it dies; then thread 4 exits. -/
def orphaned : List PEvent :=
  starts 1 3 ++ starts 3 4 ++ [.exit 3 7] ++ steps 7 3 0 ++ [.wait 1 3] ++ steps 14 1 0 ++
    steps 3 3 0 ++ [.exit 4 0] ++ steps 7 4 0

end Pintos
