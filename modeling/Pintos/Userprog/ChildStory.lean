/-
  Subject:   What is on record about a child: how it was loaded, how it ended, and what its parent was
             told.

  `Story c x q` relates the process `x` of child `c` to the program counter `q` of its parent: what
  `load` said goes with where the child is; `exit_soon` is set exactly after a failed load; on the way
  out `exit_status` is what the parent is owed; a status the parent carries, or has returned, is that
  one; a loaded child is gone only once the parent carries its status.

  `pStep_tale`: every step keeps it which meets `Delivers`. The lock protocol supplies the order: the
  parent is past `lock_exec` only when the child has released it, and so for `lock_wait`, and the child
  is past `lock_exit` only when the parent has given it back.
-/
import Pintos.Userprog.Sleepers

namespace Pintos

/-! ## 1. The relation -/

variable {pc pc' : PC} {b : Bool} {i owed r tid : Int} {e : PEvent} {f g : Proc → Proc}

variable {q : PC} {c : Tid}

namespace PC

/-- What is on record of `load` when the process is here. -/
def Verdict : PC → Option Bool → Prop
  | .load, b => b = none
  | .startRel _, b => b = some true
  | .failStatus, b | .failSoon, b | .failRel _, b => b = some false
  | _, b => b ≠ none

/-- The child whose `exit_soon` the parent is about to clear. -/
def beforeSoon : PC → Option Tid
  | .soonLookup c | .soonWrite c => some c
  | _ => none

/-- The child whose `struct thread` `process_execute` accesses next. -/
def execDerefs : PC → Option Tid
  | .soonLookup c | .soonWrite c | .execExit c _ | .execExec c _ | .execTest2 c | .execRead c => some c
  | _ => none

/-- The child whose status `process_wait` has read, and the status. -/
def carries : PC → Option (Tid × Int)
  | .waitExit c i _ | .waitExit2 c i _ | .waitReturn c i => some (c, i)
  | _ => none

/-- In `start_process` after a failed load, with `exit_soon` not set yet. -/
def notSoonYet : PC → Bool
  | .failStatus | .failSoon => true
  | _ => false

theorem relExec_of_unloaded (h : pc.Verdict none) : pc.relExec = .held := by
  cases pc <;> first | rfl | exact absurd rfl h | cases h

theorem relExec_of_notSoonYet (h : pc.notSoonYet = true) : pc.relExec = .held := by
  cases pc <;> first | rfl | cases h

theorem target_of_beforeSoon (h : q.beforeSoon = some c) : q.target = some c := by
  cases q <;> first | exact h | cases h

theorem target_of_execDerefs (h : q.execDerefs = some c) : q.target = some c := by
  cases q <;> first | exact h | cases h

theorem target_of_carries (h : q.carries = some (c, i)) : q.target = some c := by
  cases q <;> cases h <;> rfl

theorem carries_of_upped (ht : q.target = some c) (h : q.useExit = .upped) :
    ∃ i, q.carries = some (c, i) := by
  cases q with
  | waitExit2 d i a | waitReturn d i =>
    cases ht
    exact ⟨i, rfl⟩
  | execExit d a => cases a <;> cases h
  | waitExit d i r => cases r <;> cases h
  | _ => cases h

end PC

structure Story (c : Tid) (x : Proc) (q : PC) : Prop where
  verdict : x.pc.Verdict x.loaded
  clear : x.loaded ≠ some false → x.exitSoon = false
  set : x.loaded = some false → x.exitSoon = true ∨ x.pc.notSoonYet = true
  first : x.loaded = some false → q.beforeSoon = some c → x.pc.notSoonYet = true
  ended : x.loaded = some true → x.pc.leaving = true → x.ended = some x.exitStatus
  soon : x.loaded = some true → x.pc ≠ .dieSoon
  gone : x.loaded = some true → x.life ≠ .alive →
    (q.target = some c → ∃ i, q.carries = some (c, i)) ∧ (q.target ≠ some c → x.waitResult ≠ none)
  status : ∀ i, q.carries = some (c, i) → x.loaded = some true → x.ended = some i
  result : ∀ r, x.execResult = some r →
    (x.loaded = some true ∧ r = c) ∨ (x.loaded = some false ∧ r = tidError)
  waited : ∀ r, x.waitResult = some r → x.loaded = some true → x.ended = some r
  finished : x.waitResult ≠ none → x.life ≠ .alive
  refs : q.execDerefs = some c → x.life = .alive
  dead : x.life ≠ .alive → x.pc = .dead

/-- The record of every child. -/
def Tale (s : PSys) : Prop :=
  ∀ c p, (s.proc c).parent = some p → Story c (s.proc c) (s.proc p).pc

/-! ## 2. Steps that change nothing on record -/

section Moves

variable {c : Tid} {x x' : Proc} {q q' : PC}

theorem Story.away (h : Story c x q) (hq : q.target ≠ some c) (hq' : q'.target ≠ some c) :
    Story c x q' := by
  refine { h with
    first := fun _ hb => absurd (PC.target_of_beforeSoon hb) hq'
    gone := fun hl ha => ⟨fun ht => absurd ht hq', fun _ => (h.gone hl ha).2 hq⟩
    status := fun i hc => absurd (PC.target_of_carries hc) hq'
    refs := fun hr => absurd (PC.target_of_execDerefs hr) hq' }

theorem Story.along (h : Story c x q) (ht : q.target = some c) (ht' : q'.target = some c)
    (hb : q'.beforeSoon = some c → q.beforeSoon = some c)
    (hc : ∀ i, q.carries = some (c, i) → q'.carries = some (c, i))
    (hc' : ∀ i, q'.carries = some (c, i) → q.carries = some (c, i))
    (hr : q'.execDerefs = some c → x.life = .alive) : Story c x q' := by
  refine { h with
    first := fun hl hb' => h.first hl (hb hb')
    gone := fun hl ha => ⟨fun _ => ?_, fun hne => absurd ht' hne⟩
    status := fun i hi => h.status i (hc' i hi)
    refs := hr }
  obtain ⟨i, hi⟩ := (h.gone hl ha).1 ht
  exact ⟨i, hc i hi⟩

/-- The child moves, and nothing on record changes. -/
theorem Story.moves (h : Story c x q) (hd : x'.data = x.data) (hv : x'.pc.Verdict x.loaded)
    (hs : x.loaded = some false → x.pc.notSoonYet = true → x'.pc.notSoonYet = true)
    (hl : x.loaded = some true → x'.pc.leaving = true → x.pc.leaving = true)
    (hn : x.loaded = some true → x'.pc ≠ .dieSoon) (ha : x.life ≠ .alive → x'.pc = .dead) :
    Story c x' q := by
  have life : x'.life = x.life := data_field Proc.life hd fun _ => rfl
  have loaded : x'.loaded = x.loaded := data_field Proc.loaded hd fun _ => rfl
  have exitSoon : x'.exitSoon = x.exitSoon := data_field Proc.exitSoon hd fun _ => rfl
  have exitStatus : x'.exitStatus = x.exitStatus := data_field Proc.exitStatus hd fun _ => rfl
  have ended : x'.ended = x.ended := data_field Proc.ended hd fun _ => rfl
  have execResult : x'.execResult = x.execResult := data_field Proc.execResult hd fun _ => rfl
  have waitResult : x'.waitResult = x.waitResult := data_field Proc.waitResult hd fun _ => rfl
  refine ⟨?_, ?_, ?_, ?_, ?_, ?_, ?_, ?_, ?_, ?_, ?_, ?_, ?_⟩
  · rw [loaded]
    exact hv
  · rw [loaded, exitSoon]
    exact h.clear
  · rw [loaded, exitSoon]
    intro hf
    rcases h.set hf with h1 | h1
    · exact .inl h1
    · exact .inr (hs hf h1)
  · rw [loaded]
    exact fun hf hb => hs hf (h.first hf hb)
  · rw [loaded, ended, exitStatus]
    exact fun ht hp => h.ended ht (hl ht hp)
  · rw [loaded]
    exact hn
  · rw [loaded, life, waitResult]
    exact h.gone
  · rw [loaded, ended]
    exact h.status
  · rw [loaded, execResult]
    exact h.result
  · rw [loaded, ended, waitResult]
    exact h.waited
  · rw [life, waitResult]
    exact h.finished
  · rw [life]
    exact h.refs
  · rw [life]
    exact ha

theorem Story.congr (h : Story c x q) (hd : x'.data = x.data) (hpc : x'.pc = x.pc) :
    Story c x' q := by
  refine h.moves hd ?_ ?_ ?_ ?_ ?_ <;> rw [hpc]
  · exact h.verdict
  · exact fun _ hs => hs
  · exact fun _ hp => hp
  · exact h.soon
  · exact h.dead

theorem Story.calm (h : Story c x q) (hd : x'.data = x.data) (ha : x.life = .alive)
    (hx : x.pc.Calm) (hx' : x'.pc.Calm) : Story c x' q := by
  have hloaded : ∀ {pc : PC}, pc.Calm → ∀ b, pc.Verdict b ↔ b ≠ none := by
    intro pc hpc b
    cases pc <;> first | exact Iff.rfl | cases hpc.2
  have hsoon : ∀ {pc : PC}, pc.Calm → pc.notSoonYet = false := by
    intro pc hpc
    cases pc <;> first | rfl | cases hpc.2
  refine h.moves hd ((hloaded hx' _).mpr ((hloaded hx _).mp h.verdict)) (fun _ h1 => ?_)
    (fun _ h1 => ?_) (fun _ h1 => ?_) (fun hne => absurd ha hne)
  · rw [hsoon hx] at h1
    cases h1
  · rw [hx'.1] at h1
    cases h1
  · rw [h1] at hx'
    cases hx'.1

end Moves

/-! ## 3. What the locks say about the order -/

section Order

variable {s : PSys} {c p : Tid} (hl : Locks s) (ha : (s.proc c).life = .alive)
  (hp : (s.proc c).parent = some p)
include hl ha hp

/-- The parent is past `lock_exec`: the child has left `start_process` behind. -/
theorem past_exec (ht : (s.proc p).pc.target = some c) (h : (s.proc p).pc.takeExec = .held) :
    (s.proc c).pc.relExec = .upped := by
  have he := (hl.pairs c p ha hp).exec
  rw [PC.towards_of_target ht, h] at he
  cases hr : (s.proc c).pc.relExec with
  | upped => rfl
  | held | cleared =>
    rw [hr] at he
    cases he

/-- The parent is past `lock_wait`: the child is on its way out. -/
theorem past_wait (ht : (s.proc p).pc.target = some c) (h : (s.proc p).pc.takeWait = .held) :
    (s.proc c).pc.leaving = true := by
  have he := (hl.pairs c p ha hp).wait
  rw [PC.towards_of_target ht, h] at he
  cases hpc : (s.proc c).pc <;> rw [hpc] at he <;> first | rfl | cases he

/-- Before the child is on its way out, the parent does not have its status. -/
theorem not_carried (h : (s.proc c).pc.leaving = false) (i : Int) :
    (s.proc p).pc.carries ≠ some (c, i) := by
  intro hi
  have hheld : (s.proc p).pc.takeWait = .held := by
    cases hq : (s.proc p).pc <;> rw [hq] at hi <;> cases hi <;> rfl
  cases h.symm.trans (past_wait hl ha hp (PC.target_of_carries hi) hheld)

/-- The child is past `lock_exit`: the parent has given it back, with the status in hand. -/
theorem past_exit (h : (s.proc c).pc = .die) :
    (s.proc p).pc.target = some c ∧ ∃ i, (s.proc p).pc.carries = some (c, i) := by
  have he := (hl.pairs c p ha hp).exit
  rw [h] at he
  have hu : ((s.proc p).pc.towards c).useExit = .upped := by
    cases hu : ((s.proc p).pc.towards c).useExit with
    | upped => rfl
    | notYet | downed | held | cleared =>
      rw [hu] at he
      cases he
  by_cases ht : (s.proc p).pc.target = some c
  · rw [PC.towards_of_target ht] at hu
    exact ⟨ht, PC.carries_of_upped ht hu⟩
  · rw [PC.towards_of_ne ht] at hu
    cases hu

end Order

/-! ## 4. Steps of one process -/

section Steps

variable {s s' : PSys} {t : Tid}

/-- **A step of thread `t`** concerns its own record and those of its children. -/
theorem Tale.update (h : Tale s) (hl : Locks s) (ho : Others s s' t)
    (rest : ∀ c, c ≠ t → (s.proc c).parent ≠ some t → (s'.proc c).data = (s.proc c).data)
    (own : ∀ p, (s.proc t).parent = some p → Story t (s.proc t) (s.proc p).pc →
      Story t (s'.proc t) (s.proc p).pc)
    (kid : ∀ c, c ≠ t → (s.proc c).parent = some t → Story c (s.proc c) (s.proc t).pc →
      Story c (s'.proc c) (s'.proc t).pc) : Tale s' := by
  intro c p hp
  rw [ho.parent] at hp
  have hpc : ∀ u, u ≠ t → (s'.proc u).pc = (s.proc u).pc := fun u hu =>
    own_field Proc.pc (ho.own u hu) fun _ => rfl
  have hcp : p ≠ c := Nat.ne_of_lt (hl.older c p hp)
  by_cases hct : c = t
  · subst hct
    rw [hpc p hcp]
    exact own p hp (h c p hp)
  · by_cases hpt : p = t
    · subst hpt
      exact kid c hct hp (h c p hp)
    · rw [hpc p hpt]
      have hne : (s.proc c).parent ≠ some t := fun he => hpt (Option.some.inj (hp.symm.trans he))
      exact (h c p hp).congr (rest c hct hne) (hpc c hct)

theorem Tale.call (h : Tale s) (hl : Locks s) (hg : Goes s s' t pc') (ha : (s.proc t).life = .alive)
    (ht : (s.proc t).pc.target = some c) (ht' : pc'.target = some c)
    (kid : Story c (s.proc c) (s.proc t).pc → Story c (s.proc c) pc') : Tale s' := by
  refine h.update hl (.of_goes hg) (fun d _ _ => hg.data d) (fun p _ hst => ?_)
    (fun d hd _ hst => ?_)
  · refine hst.calm (hg.data t) ha (PC.quiet_of_target ht) ?_
    rw [hg.here]
    exact PC.quiet_of_target ht'
  · rw [hg.here]
    refine Story.congr ?_ (hg.data d) (hg.there hd)
    by_cases hdc : d = c
    · subst hdc
      exact kid hst
    · have hne : ∀ {pc : PC}, pc.target = some c → pc.target ≠ some d := fun h1 h2 =>
        hdc (Option.some.inj (h2.symm.trans h1))
      exact hst.away (hne ht) (hne ht')

theorem Tale.silent (h : Tale s) (hl : Locks s) (hg : Goes s s' t pc') (hpc : (s.proc t).pc = pc)
    (ha : (s.proc t).life = .alive) (ht : pc.target = some c) (ht' : pc'.target = some c)
    (hb : pc'.beforeSoon = some c → pc.beforeSoon = some c) (hc : pc'.carries = pc.carries)
    (hr : pc'.execDerefs = some c → pc.execDerefs = some c ∨ (s.proc c).life = .alive) :
    Tale s' := by
  subst hpc
  refine h.call hl hg ha ht ht' fun hst => hst.along ht ht' hb ?_ ?_ fun hr' => ?_
  · exact fun i hi => hc.trans hi
  · exact fun i hi => hc.symm.trans hi
  · rcases hr hr' with h1 | h1
    · exact hst.refs h1
    · exact h1

theorem Tale.self (h : Tale s) (hl : Locks s) (ho : Others s s' t)
    (rest : ∀ c, c ≠ t → (s'.proc c).data = (s.proc c).data)
    (ht : (s.proc t).pc.target = none) (ht' : (s'.proc t).pc.target = none)
    (own : ∀ p, (s.proc t).parent = some p → Story t (s.proc t) (s.proc p).pc →
      Story t (s'.proc t) (s.proc p).pc) : Tale s' := by
  refine h.update hl ho (fun c hc _ => rest c hc) own fun c hc _ hst => ?_
  have hpc : (s'.proc c).pc = (s.proc c).pc := own_field Proc.pc (ho.own c hc) fun _ => rfl
  refine Story.congr (hst.away ?_ ?_) (rest c hc) hpc
  · rw [ht]
    exact nofun
  · rw [ht']
    exact nofun

end Steps

/-! ## 5. What a child puts on record -/

section Child

variable {c : Tid} {x : Proc} {q : PC} (h : Story c x q)
include h

theorem Story.loads (ha : x.life = .alive) (hpc : x.pc = .load) (hq : ∀ i, q.carries ≠ some (c, i))
    (hv : pc'.Verdict (some b)) (hs : b = false → pc'.notSoonYet = true)
    (hp : pc'.leaving = false) : Story c { x with pc := pc', loaded := some b } q := by
  have hnone : x.loaded = none := by
    have := h.verdict
    rwa [hpc] at this
  refine ⟨hv, fun _ => ?_, fun hb => .inr ?_, fun hb _ => ?_, fun _ hl => ?_, fun _ hd => ?_,
    fun _ hne => absurd ha hne, fun i hi => absurd hi (hq i), fun r hr => ?_, fun r hr => ?_,
    h.finished, h.refs, fun hne => absurd ha hne⟩
  · exact h.clear (by rw [hnone]; exact nofun)
  · exact hs (Option.some.inj hb)
  · exact hs (Option.some.inj hb)
  · cases hp.symm.trans hl
  · cases hd
    cases hp
  · rcases h.result r hr with h1 | h1 <;> cases hnone.symm.trans h1.1
  · have hw : x.waitResult = some r := hr
    exact absurd ha (h.finished (by rw [hw]; exact nofun))

theorem Story.failStatus (hpc : x.pc = .failStatus) :
    Story c { x with exitStatus := -1, pc := .failSoon } q := by
  have hf : x.loaded = some false := by
    have := h.verdict
    rwa [hpc] at this
  have hno : x.loaded ≠ some true := by
    rw [hf]
    exact nofun
  have ha : x.life = .alive := by
    by_contra hne
    cases hpc.symm.trans (h.dead hne)
  exact ⟨hf, h.clear, fun _ => .inr rfl, fun _ _ => rfl, fun ht => absurd ht hno,
    fun ht => absurd ht hno, h.gone, h.status, h.result, h.waited, h.finished, h.refs,
    fun hne => absurd ha hne⟩

theorem Story.failSoon (hpc : x.pc = .failSoon) (hq : q.beforeSoon ≠ some c) :
    Story c { x with exitSoon := true, pc := .failRel .check } q := by
  have hf : x.loaded = some false := by
    have := h.verdict
    rwa [hpc] at this
  have hno : x.loaded ≠ some true := by
    rw [hf]
    exact nofun
  have ha : x.life = .alive := by
    by_contra hne
    cases hpc.symm.trans (h.dead hne)
  exact ⟨hf, fun hne => absurd hf hne, fun _ => .inl rfl, fun _ hb => absurd hb hq,
    fun ht => absurd ht hno, fun ht => absurd ht hno, h.gone, h.status, h.result, h.waited, h.finished,
    h.refs, fun hne => absurd ha hne⟩

/-- `thread_exit` from user code, with the status that is owed stored in `exit_status`. -/
theorem Story.leaves (owed : Int) (ha : x.life = .alive) (hpc : x.pc = .user)
    (hq : ∀ i, q.carries ≠ some (c, i)) :
    Story c { x with pc := .exitHeld, exitStatus := owed, ended := some owed } q := by
  have hv : x.loaded ≠ none := by
    have := h.verdict
    rwa [hpc] at this
  refine ⟨hv, h.clear, fun hf => ?_, fun hf hb => ?_, fun _ _ => rfl, fun _ => nofun, h.gone,
    fun i hi => absurd hi (hq i), h.result, fun r hr => ?_, h.finished, h.refs,
    fun hne => absurd ha hne⟩
  · rcases h.set hf with h1 | h1
    · exact .inl h1
    · rw [hpc] at h1
      cases h1
  · have h1 := h.first hf hb
    rw [hpc] at h1
    cases h1
  · have hw : x.waitResult = some r := hr
    exact absurd ha (h.finished (by rw [hw]; exact nofun))

theorem Story.dies (hv : x.loaded ≠ none) (hs : x.pc.notSoonYet = false) (hp : x.pc.leaving = true)
    (hq : x.loaded = some true → q.target = some c ∧ ∃ i, q.carries = some (c, i))
    (hr : q.execDerefs ≠ some c) : Story c { x with life := .freed, pc := .dead } q := by
  refine ⟨hv, h.clear, fun hf => ?_, fun hf hb => ?_, fun ht _ => h.ended ht hp, fun _ => nofun,
    fun ht _ => ?_, h.status, h.result, h.waited, fun _ => nofun, fun hd => absurd hd hr,
    fun _ => rfl⟩
  · rcases h.set hf with h1 | h1
    · exact .inl h1
    · cases hs.symm.trans h1
  · cases hs.symm.trans (h.first hf hb)
  · obtain ⟨htar, hc⟩ := hq ht
    exact ⟨fun _ => hc, fun hne => absurd htar hne⟩

end Child

/-! ## 6. What a parent puts on record -/

section Parent

variable {c : Tid} {x : Proc} {q : PC} (h : Story c x q)
include h

/-- `exit_soon = 0`: if the load has failed, the child is yet to set it. -/
theorem Story.clears (hq : q = .soonWrite c) :
    Story c { x with exitSoon := false } (.execExit c .lookup) := by
  subst hq
  have ha : x.life = .alive := h.refs rfl
  exact ⟨h.verdict, fun _ => rfl, fun hf => .inr (h.first hf rfl), fun _ => nofun, h.ended, h.soon,
    fun _ hne => absurd ha hne, fun _ => nofun, h.result, h.waited, h.finished, fun _ => ha,
    fun hne => absurd ha hne⟩

/-- A child that is gone before its parent has its status was not loaded. -/
theorem Story.lost (ht : q.target = some c) (hc : ∀ i, q.carries ≠ some (c, i))
    (hne : x.life ≠ .alive) : x.loaded = some false := by
  have hv := h.verdict
  rw [h.dead hne] at hv
  cases hb : x.loaded with
  | none => exact absurd hb hv
  | some b =>
    cases b with
    | false => rfl
    | true =>
      obtain ⟨i, hi⟩ := (h.gone hb hne).1 ht
      exact absurd hi (hc i)

theorem Story.reads (hp : x.pc.relExec = .upped) :
    (x.loaded = some true ∧ (if x.exitSoon then tidError else (c : Int)) = c) ∨
      (x.loaded = some false ∧ (if x.exitSoon then tidError else (c : Int)) = tidError) := by
  have hv := h.verdict
  cases hb : x.loaded with
  | none =>
    rw [hb] at hv
    cases hp.symm.trans (PC.relExec_of_unloaded (hb ▸ hv))
  | some b =>
    cases b with
    | true =>
      left
      have hsoon := h.clear (by rw [hb]; exact nofun)
      simp [hsoon]
    | false =>
      right
      have hsoon : x.exitSoon = true := by
        rcases h.set hb with h1 | h1
        · exact h1
        · cases hp.symm.trans (PC.relExec_of_notSoonYet h1)
      simp [hsoon]

theorem Story.execReturns (ht : q.target = some c) (hc : ∀ i, q.carries ≠ some (c, i))
    (hr : (x.loaded = some true ∧ r = c) ∨ (x.loaded = some false ∧ r = tidError)) :
    Story c { x with execResult := some r } .user := by
  refine ⟨h.verdict, h.clear, h.set, fun _ => nofun, h.ended, h.soon, fun hb hne => ?_, fun _ => nofun,
    fun r' hr' => ?_, h.waited, h.finished, nofun, h.dead⟩
  · obtain ⟨i, hi⟩ := (h.gone hb hne).1 ht
    exact absurd hi (hc i)
  · cases hr'
    exact hr

theorem Story.waitBegins (ha : x.life = .alive) : Story c x (.waitWait c .lookup) :=
  { h with
    first := fun _ => nofun
    gone := fun _ hne => absurd ha hne
    status := fun _ => nofun
    refs := nofun }

/-- `process_wait` reads `exit_status` of a child on its way out. -/
theorem Story.readsStatus (ha : x.life = .alive) (hp : x.pc.leaving = true) :
    Story c x (.waitExit c x.exitStatus .lookup) :=
  { h with
    first := fun _ => nofun
    gone := fun _ hne => absurd ha hne
    status := fun i hi hb => by
      cases hi
      exact h.ended hb hp
    refs := nofun }

theorem Story.waitReturns (hne : x.life ≠ .alive) (hr : x.loaded = some true → x.ended = some r) :
    Story c { x with waitResult := some r } .user := by
  refine ⟨h.verdict, h.clear, h.set, fun _ => nofun, h.ended, h.soon, fun _ _ => ?_, fun _ => nofun,
    h.result, fun r' hr' hb => ?_, fun _ => hne, nofun, h.dead⟩
  · exact ⟨nofun, fun _ => nofun⟩
  · cases hr'
    exact hr hb

end Parent

/-! ## 7. Every step -/

/-- **What the delivery of the status asks of a step**, besides the lock discipline. A thread can be
    created; a failed load has opened the executable; an exception in user code is a page fault. A
    child sets `exit_soon` after its parent has cleared it, and is gone only when its parent's
    `process_execute` does not use it any more. -/
def Delivers (s : PSys) : PEvent → Prop
  | .create _ page => page = true
  | .load _ outcome => outcome ≠ .failNoFile
  | .kill _ vec => vec = 14
  | .run t g =>
    LockDiscipline s (.run t g) ∧
    ((s.proc t).pc = .failSoon → ∀ p ∈ (s.proc t).parent, (s.proc p).pc.beforeSoon ≠ some t) ∧
    ((s.proc t).pc = .die ∨ (s.proc t).pc = .dieSoon →
      ∀ p ∈ (s.proc t).parent, (s.proc p).pc.execDerefs ≠ some t)
  | .execute _ _ | .wait _ _ | .exit _ _ | .terminate _ => True

instance (s : PSys) : (e : PEvent) → Decidable (Delivers s e)
  | .create _ page => inferInstanceAs (Decidable (page = true))
  | .load _ outcome => inferInstanceAs (Decidable (outcome ≠ .failNoFile))
  | .kill _ vec => inferInstanceAs (Decidable (vec = 14))
  | .run _ _ => inferInstanceAs (Decidable (_ ∧ _ ∧ _))
  | .execute _ _ | .wait _ _ | .exit _ _ | .terminate _ => inferInstanceAs (Decidable True)

variable {s : PSys}

theorem Delivers.discipline (h : Delivers s e) : LockDiscipline s e := by
  cases e with
  | run t g => exact h.1
  | _ => trivial

section Steps

variable {s s' : PSys} {t : Tid} (h : Tale s) (hl : Locks s)
include h hl

theorem Tale.ownLock (hpc : (s.proc t).pc = pc) (hg : Goes s s' t pc')
    (ha : (s.proc t).life = .alive) (ht : pc.target = none) (ht' : pc'.target = none)
    (hv : ∀ b, pc.Verdict b → pc'.Verdict b) (hs : pc.notSoonYet = false)
    (hp : pc'.leaving = true → pc.leaving = true ∨ ¬pc.Verdict (some true))
    (hn : pc' = .dieSoon → (s.proc t).exitSoon = true) : Tale s' := by
  refine h.self hl (.of_goes hg) (fun c _ => hg.data c) (by rw [hpc, ht]) (by rw [hg.here, ht'])
    fun p _ hst => ?_
  have hverdict := hst.verdict
  rw [hpc] at hverdict
  refine hst.moves (hg.data t) ?_ (fun _ h1 => ?_) (fun hb h1 => ?_) (fun hb => ?_)
    fun hne => absurd ha hne
  · rw [hg.here]
    exact hv _ hverdict
  · rw [hpc, hs] at h1
    cases h1
  · rw [hg.here] at h1
    rw [hpc]
    rcases hp h1 with h2 | h2
    · exact h2
    · rw [hb] at hverdict
      exact absurd hverdict h2
  · rw [hg.here]
    intro h1
    cases (hst.clear (by rw [hb]; exact nofun)).symm.trans (hn h1)

/-- The end of `thread_exit`: a loaded child comes to it past `lock_exit`. -/
theorem Tale.dies {g : ℕ} (hpc : (s.proc t).pc = .die ∨ (s.proc t).pc = .dieSoon)
    (ha : (s.proc t).life = .alive)
    (hr : ∀ p ∈ (s.proc t).parent, (s.proc p).pc.execDerefs ≠ some t) : Tale (dieStep s t g) := by
  have hnone : (s.proc t).pc.target = none := by
    rcases hpc with hpc | hpc <;> rw [hpc] <;> rfl
  have ho := Others.dies s t g
  unfold dieStep at ho ⊢
  dsimp only at ho ⊢
  split at ho
  · rename_i hown
    rw [if_pos hown]
    have hstill := (Still.setLock s t .exit2 { (s.proc t).lock .exit2 with holder := none }).trans
      (Still.plockUp _ t .exit2 g)
    refine h.self hl ho (fun c hc => ?_) hnone (by simp [PC.target]) fun p hp hst => ?_
    · rw [PSys.proc_modify, if_neg hc]
      exact hstill.data c
    · rw [PSys.proc_modify, if_pos rfl]
      have hgone : Story t { s.proc t with life := .freed, pc := .dead } (s.proc p).pc := by
        have hv := hst.verdict
        rcases hpc with hpc | hpc <;> rw [hpc] at hv
        · exact hst.dies hv (by rw [hpc]; rfl) (by rw [hpc]; rfl)
            (fun _ => past_exit hl ha hp hpc) (hr p hp)
        · exact hst.dies hv (by rw [hpc]; rfl) (by rw [hpc]; rfl)
            (fun hb => absurd hpc (hst.soon hb)) (hr p hp)
      refine hgone.congr ?_ rfl
      have hd := hstill.data t
      have hlife (x : Proc) : ({ x with life := .freed, pc := .dead } : Proc).data =
        { x.data with life := .freed } := rfl
      rw [hlife, hlife, hd]
  · rename_i hown
    rw [if_neg hown]
    exact h

/-- A store of the parent to its child `c`, with which it goes on. -/
theorem Tale.store (ha : (s.proc t).life = .alive) (hp : (s.proc c).parent = some t)
    (hf : ∀ x, (f x).own = x.own) (hg : ∀ x, (g x).data = x.data) (hcalm : (s.proc t).pc.Calm)
    (hcalm' : (g (s.proc t)).pc.Calm)
    (hto : ∀ d, d ≠ c → (s.proc t).pc.target ≠ some d ∧ (g (s.proc t)).pc.target ≠ some d)
    (kid : Story c (s.proc c) (s.proc t).pc → Story c (f (s.proc c)) (g (s.proc t)).pc) :
    Tale ((s.modify c f).modify t g) := by
  have hne : t ≠ c := Nat.ne_of_lt (hl.older c t hp)
  have ht : ((s.modify c f).modify t g).proc t = g (s.proc t) := by simp [hne]
  have hc : ((s.modify c f).modify t g).proc c = f (s.proc c) := by simp [hne.symm]
  have hrest : ∀ d, d ≠ t → d ≠ c → ((s.modify c f).modify t g).proc d = s.proc d := by
    intro d h1 h2
    simp [h1, h2]
  have ho : Others s ((s.modify c f).modify t g) t :=
    (Others.store s t c hf).trans (.self _ t fun x => data_parent (hg x))
  refine h.update hl ho (fun d h1 h2 => ?_) (fun p _ hst => ?_) (fun d h1 _ hst => ?_)
  · rw [hrest d h1 fun hdc => h2 (hdc ▸ hp)]
  · rw [ht]
    exact hst.calm (hg _) ha hcalm hcalm'
  · rw [ht]
    by_cases hdc : d = c
    · subst hdc
      rw [hc]
      exact kid hst
    · rw [hrest d h1 hdc]
      exact hst.away (hto d hdc).1 (hto d hdc).2

theorem Tale.onward (ha : (s.proc t).life = .alive) (hg : ∀ x, (g x).data = x.data)
    (hcalm : (s.proc t).pc.Calm) (hcalm' : (g (s.proc t)).pc.Calm)
    (ht : (s.proc t).pc.target = none) (ht' : (g (s.proc t)).pc.target = none) :
    Tale (s.modify t g) := by
  have hself : (s.modify t g).proc t = g (s.proc t) := by simp
  refine h.self hl (.self s t fun x => data_parent (hg x)) (fun c hc => ?_) ht
    (by rw [hself]; exact ht') fun p _ hst => ?_
  · rw [PSys.proc_modify, if_neg hc]
  · rw [hself]
    exact hst.calm (hg _) ha hcalm hcalm'

theorem Tale.returnsWait (ha : (s.proc t).life = .alive) (hcalm : (s.proc t).pc.Calm)
    (hto : ∀ d, d ≠ tid.toNat → (s.proc t).pc.target ≠ some d)
    (hnone : (s.proc tid.toNat).parent ≠ some t → (s.proc t).pc.target = none)
    (kid : (s.proc tid.toNat).parent = some t →
      Story tid.toNat (s.proc tid.toNat) (s.proc t).pc → (s.proc tid.toNat).life ≠ .alive ∧
        ((s.proc tid.toNat).waitResult = none → (s.proc tid.toNat).loaded = some true →
          (s.proc tid.toNat).ended = some r)) : Tale (returnWait s t tid r) := by
  unfold returnWait
  by_cases hp : (s.proc tid.toNat).parent = some t
  · refine h.store hl ha hp (fun x => ?_) (fun _ => rfl) hcalm ⟨rfl, rfl⟩
      (fun d hd => ⟨hto d hd, nofun⟩) fun hst => ?_
    · split <;> rfl
    · obtain ⟨hgone, hended⟩ := kid hp hst
      rw [if_congr (and_iff_right hp) rfl rfl]
      split
      · rename_i hw
        exact hst.waitReturns hgone (hended hw)
      · rename_i hw
        -- a second `process_wait`: the record of the first one stays
        exact { hst with
          first := fun _ => nofun
          gone := fun _ _ => ⟨nofun, fun _ => hw⟩
          status := fun _ => nofun
          refs := nofun }
  · have hid : (s.modify tid.toNat fun x =>
        if x.parent = some t ∧ x.waitResult = none then { x with waitResult := some r } else x) = s := by
      simp [PSys.modify, hp]
    rw [hid]
    exact h.onward hl ha (fun _ => rfl) hcalm ⟨rfl, rfl⟩ (hnone hp) rfl

/-- `process_execute` has accesses to the child ahead. -/
theorem Tale.derefs (hr : (s.proc t).pc.execDerefs = some c) :
    (s.proc c).parent = some t ∧ s.onAllList c = true := by
  have hp := hl.targets t c (PC.target_of_execDerefs hr)
  exact ⟨hp, (s.onAllList_iff c).mpr ((h c t hp).refs hr)⟩

theorem Tale.clears (ha : (s.proc t).life = .alive) (hpc : (s.proc t).pc = .soonWrite c) :
    Tale ((s.modify c fun x => { x with exitSoon := false }).goto t (.execExit c .lookup)) := by
  have ht : (s.proc t).pc.target = some c := by
    rw [hpc]
    rfl
  exact h.store hl ha (hl.targets t c ht) (fun _ => rfl) (fun _ => rfl) (PC.quiet_of_target ht)
    ⟨rfl, rfl⟩ (fun d hdc => ⟨fun he => hdc (Option.some.inj (he.symm.trans ht)),
      fun he => hdc (Option.some.inj he).symm⟩) fun hst => hst.clears hpc

theorem Tale.execReturns (ha : (s.proc t).life = .alive) (ht : (s.proc t).pc.target = some c)
    (hc : ∀ i, (s.proc t).pc.carries ≠ some (c, i))
    (hr : ((s.proc c).loaded = some true ∧ r = c) ∨
      ((s.proc c).loaded = some false ∧ r = tidError)) : Tale (returnExec s t c r) :=
  h.store hl ha (hl.targets t c ht) (fun _ => rfl) (fun _ => rfl) (PC.quiet_of_target ht) ⟨rfl, rfl⟩
    (fun _ hdc => ⟨fun he => hdc (Option.some.inj (he.symm.trans ht)), nofun⟩)
    fun hst => hst.execReturns ht hc hr

theorem Tale.waitBegins (ha : (s.proc t).life = .alive) (hpc : (s.proc t).pc = .waitGuard tid)
    (hon : s.onAllList tid.toNat = true) : Tale (s.goto t (.waitWait tid.toNat .lookup)) := by
  have hg : Goes s _ t _ := (Still.refl s).goto t (.waitWait tid.toNat .lookup)
  refine h.update hl (.of_goes hg) (fun d _ _ => hg.data d) (fun p _ hst => ?_) fun d hdt _ hst => ?_
  · refine hst.calm (hg.data t) ha (by rw [hpc]; exact ⟨rfl, rfl⟩) ?_
    rw [hg.here]
    exact ⟨rfl, rfl⟩
  · rw [hg.here]
    refine Story.congr ?_ (hg.data d) (hg.there hdt)
    by_cases hdc : d = tid.toNat
    · subst hdc
      exact hst.waitBegins ((s.onAllList_iff _).mp hon)
    · exact hst.away (by rw [hpc]; exact nofun) fun he => hdc (Option.some.inj he).symm

/-- `process_wait` reads the status of a child on its way out, or of one that was not loaded. -/
theorem Tale.readsStatus (ha : (s.proc t).life = .alive) (hpc : (s.proc t).pc = .statusRead c)
    (garbage : Int) : Tale ((s.touch c).goto t
      (.waitExit c (if s.onAllList c then (s.proc c).exitStatus else garbage) .lookup)) := by
  have hat : (s.proc t).pc.target = some c := by
    rw [hpc]
    rfl
  refine h.call hl ((Still.touch s c).goto t _) ha hat rfl fun hst => ?_
  by_cases halive : (s.proc c).life = .alive
  · rw [if_pos ((s.onAllList_iff c).mpr halive)]
    exact hst.readsStatus halive (past_wait hl halive (hl.targets t c hat) hat (by rw [hpc]; rfl))
  · have hf := hst.lost hat (by rw [hpc]; exact fun _ => nofun) halive
    have hno : (s.proc c).loaded ≠ some true := by
      rw [hf]
      exact nofun
    exact { hst with
      first := fun _ => nofun
      gone := fun hb => absurd hb hno
      status := fun _ _ hb => absurd hb hno
      refs := nofun }

theorem Tale.waitReturns (ha : (s.proc t).life = .alive)
    (hpc : (s.proc t).pc = .waitReturn c status) : Tale (returnWait s t c status) := by
  have hat : (s.proc t).pc.target = some c := by
    rw [hpc]
    rfl
  have hp := hl.targets t c hat
  refine h.returnsWait hl ha (PC.quiet_of_target hat) (fun d hdc => ?_) (fun hne => absurd hp hne)
    fun _ hst => ⟨fun halive => ?_, fun _ hb => hst.status status (by rw [hpc]; rfl) hb⟩
  · rw [hat]
    exact fun he => hdc (Option.some.inj he).symm
  · have hbefore := (hl.pairs c t halive hp).before
    rw [PC.towards_of_target hat, hpc] at hbefore
    cases hbefore

end Steps

variable {t : Tid} {s' : PSys}

/-- A thread whose parent is the caller, and which the test of `process_wait` refuses, is gone. -/
theorem gone_of_refused (hl : Locks s) (hp : (s.proc tid.toNat).parent = some t)
    (hr : waitRefuses s tid = true) : (s.proc tid.toNat).life ≠ .alive := by
  intro ha
  have hlt : Nat.lt tid.toNat s.nextTid := lt_nextTid (fun u hu => (hl.fresh u hu).1) ha
  have hpos : Nat.lt t tid.toNat := hl.older _ _ hp
  rw [Nat.lt_eq] at hlt hpos
  have hon : s.onAllList tid.toNat = true := (s.onAllList_iff _).mpr ha
  simp only [waitRefuses, hon, tidError, Bool.not_true, Bool.or_false, Bool.or_eq_true, beq_iff_eq,
    decide_eq_true_eq] at hr
  omega

theorem Tale.waitRefused (h : Tale s) (hl : Locks s) (ha : (s.proc t).life = .alive)
    (hpc : (s.proc t).pc = .waitGuard tid) (hr : waitRefuses s tid = true) :
    Tale (returnWait s t tid (-1)) := by
  refine h.returnsWait hl ha (by rw [hpc]; exact ⟨rfl, rfl⟩) (fun d _ => by rw [hpc]; exact nofun)
    (fun _ => by rw [hpc]; rfl) fun hp hst => ?_
  have hgone := gone_of_refused hl hp hr
  exact ⟨hgone, fun hw hb => absurd hw ((hst.gone hb hgone).2 (by rw [hpc]; exact nofun))⟩

theorem runStep_tale {g : ℕ} (h : Tale s) (hl : Locks s) (hs : runStep s t g = some s')
    (ha : (s.proc t).life = .alive) (hd : Delivers s (.run t g)) : Tale s' := by
  obtain ⟨-, hsoon, hdie⟩ := hd
  have hparent : ∀ c, (s.proc t).pc.target = some c → Story c (s.proc c) (s.proc t).pc :=
    fun c hc => h c t (hl.targets t c hc)
  unfold runStep at hs
  generalize hpc : (s.proc t).pc = pc at hs
  cases pc with
  | kernel | user | create | load | dead => cases hs
  | soonLookup c | execTest2 c | statusLookup c =>
    cases hs
    split
    · exact h.silent hl ((Still.refl s).goto t _) hpc ha rfl rfl id rfl .inl
    · exact h
  | soonWrite c =>
    cases hs
    rw [if_pos (h.derefs hl (by rw [hpc]; rfl)).2]
    exact h.clears hl ha hpc
  | execExit c a | waitWait c a | waitExit2 c status a =>
    cases hs
    obtain ⟨pc', rfl | ⟨b, rfl⟩, hg⟩ := acquireStep_goes s t _ _ g _ hpc
    all_goals exact h.silent hl hg hpc ha rfl rfl id rfl .inl
  | execExec c a =>
    cases hs
    obtain ⟨pc', rfl | ⟨b, rfl⟩, hg⟩ := acquireStep_goes s t c .exec g (.execTest c) hpc
    · exact h.silent hl hg hpc ha rfl rfl id rfl nofun
    · exact h.silent hl hg hpc ha rfl rfl id rfl .inl
  | execTest c =>
    cases hs
    split
    · rename_i hon
      exact h.silent hl ((Still.refl s).goto t _) hpc ha rfl rfl nofun rfl
        fun _ => .inr ((s.onAllList_iff c).mp hon)
    · rename_i hoff
      have hat : (s.proc t).pc.target = some c := by
        rw [hpc]
        rfl
      have hc : ∀ i, (s.proc t).pc.carries ≠ some (c, i) := by
        rw [hpc]
        exact fun _ => nofun
      exact h.execReturns hl ha hat hc
        (.inr ⟨(hparent c hat).lost hat hc fun he => hoff ((s.onAllList_iff c).mpr he), rfl⟩)
  | execRead c =>
    cases hs
    have hat : (s.proc t).pc.target = some c := by
      rw [hpc]
      rfl
    obtain ⟨hp, hon⟩ := h.derefs hl (c := c) (by rw [hpc]; rfl)
    rw [PSys.touch_alive hon, if_pos hon]
    have hup := past_exec hl ((s.onAllList_iff c).mp hon) hp hat (by rw [hpc]; rfl)
    exact h.execReturns hl ha hat (by rw [hpc]; exact fun _ => nofun) ((hparent c hat).reads hup)
  | waitGuard tid =>
    cases hs
    split
    · rename_i hrefuse
      exact h.waitRefused hl ha hpc hrefuse
    · rename_i hpass
      refine h.waitBegins hl ha hpc ?_
      by_contra hoff
      exact hpass (by simp [waitRefuses, hoff])
  | statusRead c =>
    cases hs
    exact h.readsStatus hl ha hpc g
  | waitExit c status r =>
    cases hs
    obtain ⟨pc', rfl | ⟨b, rfl⟩, hg⟩ :=
      releaseStep_goes s t c .exit g (.waitExit2 c status .lookup) hpc
    all_goals exact h.silent hl hg hpc ha rfl rfl id rfl .inl
  | waitReturn c status =>
    cases hs
    exact h.waitReturns hl ha hpc
  | startRel r =>
    cases hs
    obtain ⟨pc', rfl | ⟨b, rfl⟩, hg⟩ := releaseStep_goes s t t .exec g .user hpc
    · refine h.ownLock hl hpc hg ha rfl rfl (fun b hb => ?_) rfl nofun nofun
      rw [hb]
      rintro ⟨⟩
    · exact h.ownLock hl hpc hg ha rfl rfl (fun _ => id) rfl nofun nofun
  | failRel r =>
    cases hs
    obtain ⟨pc', rfl | ⟨b, rfl⟩, hg⟩ := releaseStep_goes s t t .exec g .exitHeld hpc
    · refine h.ownLock hl hpc hg ha rfl rfl (fun b hb => ?_) rfl (fun _ => .inr nofun)
        nofun
      rw [hb]
      rintro ⟨⟩
    · exact h.ownLock hl hpc hg ha rfl rfl (fun _ => id) rfl nofun nofun
  | failStatus =>
    cases hs
    refine h.self hl ((Others.self s t ?_).trans (.goto _ t _)) (fun c hc => ?_) (by rw [hpc]; rfl)
      (by simp [PSys.goto, PC.target]) fun p _ hst => ?_
    · exact fun _ => rfl
    · simp [PSys.goto, hc]
    · have := hst.failStatus hpc
      simpa [PSys.goto] using this
  | failSoon =>
    cases hs
    refine h.self hl ((Others.self s t ?_).trans (.goto _ t _)) (fun c hc => ?_) (by rw [hpc]; rfl)
      (by simp [PSys.goto, PC.target]) fun p hp hst => ?_
    · exact fun _ => rfl
    · simp [PSys.goto, hc]
    · have := hst.failSoon hpc (hsoon hpc p hp)
      simpa [PSys.goto] using this
  | exitHeld =>
    cases hs
    split <;> exact h.ownLock hl hpc ((Still.refl s).goto t _) ha rfl rfl (fun _ => id) rfl
      (fun _ => .inl rfl) (by simp)
  | exitExec r | exitWait r =>
    cases hs
    obtain ⟨pc', rfl | ⟨b, rfl⟩, hg⟩ := releaseStep_goes s t t _ g _ hpc
    all_goals exact h.ownLock hl hpc hg ha rfl rfl (fun _ => id) rfl (fun _ => .inl rfl) (by simp)
  | exitTest =>
    cases hs
    split
    · rename_i hset
      exact h.ownLock hl hpc ((Still.refl s).goto t _) ha rfl rfl (fun _ => id) rfl
        (fun _ => .inl rfl) fun _ => hset
    · exact h.ownLock hl hpc ((Still.refl s).goto t _) ha rfl rfl (fun _ => id) rfl
        (fun _ => .inl rfl) (by simp)
  | exitExit a =>
    cases hs
    obtain ⟨pc', rfl | ⟨b, rfl⟩, hg⟩ := acquireStep_goes s t t .exit g .die hpc
    all_goals exact h.ownLock hl hpc hg ha rfl rfl (fun _ => id) rfl (fun _ => .inl rfl) (by simp)
  | die =>
    cases hs
    exact h.dies hl (.inl hpc) ha (hdie (.inl hpc))
  | dieSoon =>
    cases hs
    exact h.dies hl (.inr hpc) ha (hdie (.inr hpc))

theorem Tale.born (h : Tale s) (hl : Locks s) (hpc : (s.proc t).pc = .create)
    (ha : (s.proc t).life = .alive) : Tale (s.born t) := by
  have hlt : t < s.nextTid := lt_nextTid (fun u hu => (hl.fresh u hu).1) ha
  intro c p hp
  by_cases hc : c = s.nextTid
  · subst hc
    rw [born_child hlt] at hp ⊢
    cases hp
    rw [born_parent hlt]
    exact ⟨rfl, fun _ => rfl, nofun, nofun, nofun, nofun, nofun, fun _ => nofun, fun _ => nofun,
      fun _ => nofun, fun hw => absurd rfl hw, fun _ => rfl, fun hne => absurd rfl hne⟩
  · by_cases hct : c = t
    · subst hct
      rw [born_parent hlt] at hp ⊢
      have hpc' : p < c := hl.older c p hp
      rw [born_other (Nat.ne_of_lt hpc') (Nat.ne_of_lt (Nat.lt_trans hpc' hlt))]
      exact (h c p hp).calm rfl ha (by rw [hpc]; exact ⟨rfl, rfl⟩) ⟨rfl, rfl⟩
    · rw [born_other hct hc] at hp ⊢
      by_cases hpt : p = t
      · subst hpt
        rw [born_parent hlt]
        exact (h c p hp).away (by rw [hpc]; exact nofun) fun he => hc (Option.some.inj he).symm
      · have hpn : p ≠ s.nextTid := by
          intro he
          have hfresh := (hl.fresh c (Nat.le_of_lt (he ▸ hl.older c p hp))).2
          cases hfresh.symm.trans hp
        rw [born_other hpt hpn]
        exact h c p hp

/-- `thread_exit` from user code, on a path that stores the status that is owed. -/
theorem startExit_tale {status : Option Int} (h : Tale s) (hl : Locks s)
    (hpc : (s.proc t).pc = .user) (ha : (s.proc t).life = .alive) (hst : status = some owed) :
    Tale (startExit s t status owed) := by
  subst hst
  refine h.self hl (.self s t fun _ => rfl) (fun c hc => ?_) (by rw [hpc]; rfl)
    (by simp [startExit, PC.target]) fun p hp hst => ?_
  · simp [startExit, hc]
  · have := hst.leaves owed ha hpc (not_carried hl ha hp (by rw [hpc]; rfl))
    simpa [startExit] using this

theorem load_tale (h : Tale s) (hl : Locks s) (hpc : (s.proc t).pc = .load)
    (ha : (s.proc t).life = .alive) (hv : pc'.Verdict (some b))
    (hs : b = false → pc'.notSoonYet = true) (hp : pc'.leaving = false) (ht : pc'.target = none) :
    Tale (s.modify t fun x => { x with pc := pc', loaded := some b }) := by
  refine h.self hl (.self s t fun _ => rfl) (fun c hc => ?_) (by rw [hpc]; rfl) (by simpa using ht)
    fun p hpar hst => ?_
  · simp [hc]
  · have := hst.loads ha hpc (not_carried hl ha hpar (by rw [hpc]; rfl)) hv hs hp
    simpa using this

theorem pStep_tale (h : Tale s) (hl : Locks s) (hs : pStep s e = some s') (hd : Delivers s e) :
    Tale s' := by
  obtain ⟨_, ha, _, hs⟩ := pStep_can hs
  cases hs with
  | run hs => exact runStep_tale h hl hs ha hd
  | copied hpc | wait hpc =>
    exact h.onward hl ha (fun _ => rfl) (by rw [hpc]; exact ⟨rfl, rfl⟩) ⟨rfl, rfl⟩
      (by rw [hpc]; rfl) rfl
  | noCopy hpc =>
    refine h.onward hl ha (fun _ => rfl) ?_ ?_ ?_ ?_ <;> show _ <;> rw [hpc]
    · exact ⟨rfl, rfl⟩
    · exact ⟨rfl, rfl⟩
    · rfl
    · rfl
  | exit hpc | terminate hpc => exact startExit_tale h hl hpc ha rfl
  | kill hpc => exact startExit_tale h hl hpc ha (if_pos hd)
  | created hpc => exact h.born hl hpc ha
  | noThread => exact h
  | loaded hpc => exact load_tale h hl hpc ha rfl nofun rfl rfl
  | failed hpc => exact load_tale h hl hpc ha rfl (fun _ => rfl) rfl rfl
  | noFile => exact absurd rfl hd

theorem pInit_tale : Tale pInit := by
  intro c p hp
  have hnone : (pInit.proc c).parent = none := by
    by_cases h1 : c = 1 <;> by_cases h2 : c = 2 <;> simp [pInit, noProc, newProc, h1, h2]
  cases hnone.symm.trans hp

end Pintos
