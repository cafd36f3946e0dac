/-
  Subject:   The protocol of the four locks that a child and its parent hand to each other.

  A lock's value and holder are functions of how far the two of them are:

  * `lock_exec` and `lock_wait` start in the child's hands, are released once by it and taken once
    by the parent (`handOver`);
  * `lock_exit` is taken by the parent in `process_execute`, given back in `process_wait` and then
    taken by the child (`exitLock`), as long as the child does not come first;
  * `lock_exit2` is the child's until it dies.

  `Locks` states that for every live child.
-/
import Pintos.Userprog.ProcessSteps

namespace Pintos

open Function

/-! ## 1. How far a process is -/

inductive RelStage where
  | held
  | cleared
  | upped
  deriving DecidableEq, Repr

inductive AcqStage where
  | notYet
  | downed
  | held
  deriving DecidableEq, Repr

/-- The parent's use of the child's `lock_exit`. -/
inductive ExitStage where
  | notYet
  | downed
  | held
  | cleared
  | upped
  deriving DecidableEq, Repr

def Rel.stage : Rel → RelStage
  | .up => .cleared
  | _ => .held

def Acq.stage : Acq → AcqStage
  | .hold => .downed
  | _ => .notYet

variable {pc pc' q : PC} {p : Tid} {x' : Proc} {s' s'' : PSys} {f : Proc → Proc} {k : Rel → PC}

variable {c t : Tid} {s : PSys}

namespace PC

/-- How far a process is in releasing its own `lock_exec`. -/
def relExec : PC → RelStage
  | .load | .failStatus | .failSoon => .held
  | .startRel r | .failRel r | .exitExec r => r.stage
  | _ => .upped

/-- How far a process is in releasing its own `lock_wait`. -/
def relWait : PC → RelStage
  | .exitWait r => r.stage
  | .exitTest | .exitExit _ | .die | .dieSoon | .dead => .upped
  | _ => .held

/-- How far a process is in taking its own `lock_exit`. -/
def ownExit : PC → AcqStage
  | .exitExit a => a.stage
  | .die => .held
  | _ => .notYet

/-- The child that a call in progress is about. -/
def target : PC → Option Tid
  | .soonLookup c | .soonWrite c | .execExit c _ | .execExec c _ | .execTest c | .execTest2 c
  | .execRead c | .waitWait c _ | .statusLookup c | .statusRead c | .waitExit c _ _
  | .waitExit2 c _ _ | .waitReturn c _ => some c
  | _ => none

/-- In `thread_exit`. -/
def leaving : PC → Bool
  | .exitHeld | .exitExec _ | .exitWait _ | .exitTest | .exitExit _ | .die | .dieSoon | .dead => true
  | _ => false

/-- In `start_process`, before user code or `thread_exit`. -/
def starting : PC → Bool
  | .load | .startRel _ | .failStatus | .failSoon | .failRel _ => true
  | _ => false

theorem quiet_of_target (h : pc.target = some c) : pc.leaving = false ∧ pc.starting = false := by
  cases pc <;> first | exact ⟨rfl, rfl⟩ | simp [target] at h

/-- How far a parent is in taking the `lock_exec` of the child its call is about. -/
def takeExec : PC → AcqStage
  | .soonLookup _ | .soonWrite _ | .execExit _ _ => .notYet
  | .execExec _ a => a.stage
  | _ => .held

def takeWait : PC → AcqStage
  | .waitWait _ a => a.stage
  | .statusLookup _ | .statusRead _ | .waitExit _ _ _ | .waitExit2 _ _ _ | .waitReturn _ _ => .held
  | _ => .notYet

def useExit : PC → ExitStage
  | .soonLookup _ | .soonWrite _ => .notYet
  | .execExit _ .hold => .downed
  | .execExit _ _ => .notYet
  | .waitExit _ _ .up => .cleared
  | .waitExit2 _ _ _ | .waitReturn _ _ => .upped
  | _ => .held

def takeExit2 : PC → AcqStage
  | .waitExit2 _ _ a => a.stage
  | .waitReturn _ _ => .held
  | _ => .notYet

/-- The stages of a parent with respect to child `c`: those of its call if that is about `c`, and
    otherwise those of a process that is past `process_execute` and before `process_wait`. -/
def towards (pc : PC) (c : Tid) : PC := if pc.target = some c then pc else .user

theorem towards_of_target (h : pc.target = some c) : pc.towards c = pc :=
  if_pos h

theorem towards_of_ne (h : pc.target ≠ some c) : pc.towards c = .user :=
  if_neg h

end PC

/-! ## 2. The invariant -/

/-- Value and holder of a lock that `owner` releases once and `taker` takes after that. -/
def handOver (owner taker : Tid) : RelStage → AcqStage → Option (ℕ × Option Tid)
  | .held, .notYet => some (0, some owner)
  | .cleared, .notYet => some (0, none)
  | .upped, .notYet => some (1, none)
  | .upped, .downed => some (0, none)
  | .upped, .held => some (0, some taker)
  | _, _ => none

/-- Value and holder of the child's `lock_exit`. -/
def exitLock (child parent : Tid) : ExitStage → AcqStage → Option (ℕ × Option Tid)
  | .notYet, .notYet => some (1, none)
  | .downed, .notYet => some (0, none)
  | .held, .notYet => some (0, some parent)
  | .cleared, .notYet => some (0, none)
  | .upped, .notYet => some (1, none)
  | .upped, .downed => some (0, none)
  | .upped, .held => some (0, some child)
  | _, _ => none

def PLock.pair (x : PLock) : ℕ × Option Tid := (x.value, x.holder)

/-- The part of a process that the lock protocol is about. -/
structure LockView where
  life : Life
  parent : Option Tid
  pc : PC
  pair : LockName → ℕ × Option Tid

def Proc.view (x : Proc) : LockView := ⟨x.life, x.parent, x.pc, fun l => (x.lock l).pair⟩

section View

variable {x y : Proc} (h : x.view = y.view)
include h

theorem view_life : x.life = y.life := by
  have := congrArg LockView.life h
  exact this

theorem view_parent : x.parent = y.parent := by
  have := congrArg LockView.parent h
  exact this

theorem view_pc : x.pc = y.pc := by
  have := congrArg LockView.pc h
  exact this

theorem view_pair (l : LockName) : (x.lock l).pair = (y.lock l).pair := by
  have := congrFun (congrArg LockView.pair h) l
  exact this

end View

/-- The locks of the live child `c`, whose process is `x`, of a parent `p` that is at `q` as far as
    `c` is concerned. -/
structure HandsOver (c p : Tid) (x : Proc) (q : PC) : Prop where
  exec : handOver c p x.pc.relExec q.takeExec = some (x.lock .exec).pair
  wait : handOver c p x.pc.relWait q.takeWait = some (x.lock .wait).pair
  exit : exitLock c p q.useExit x.pc.ownExit = some (x.lock .exit).pair
  exit2 : (x.lock .exit2).pair = (0, some c)
  before : q.takeExit2 = .notYet

/-- **The lock invariant** of the whole system. -/
structure Locks (s : PSys) : Prop where
  fresh : ∀ t, s.nextTid ≤ t → (s.proc t).life = .unborn ∧ (s.proc t).parent = none
  older : ∀ c p, (s.proc c).parent = some p → p < c
  targets : ∀ t c, (s.proc t).pc.target = some c → (s.proc c).parent = some t
  pairs : ∀ c p, (s.proc c).life = .alive → (s.proc c).parent = some p →
    HandsOver c p (s.proc c) ((s.proc p).pc.towards c)

variable {x : Proc}

theorem HandsOver.moved (h : HandsOver c p x q) (hl : ∀ l, (x'.lock l).pair = (x.lock l).pair)
    (he : x'.pc.relExec = x.pc.relExec) (hw : x'.pc.relWait = x.pc.relWait)
    (ho : x'.pc.ownExit = x.pc.ownExit) : HandsOver c p x' q := by
  refine ⟨?_, ?_, ?_, ?_, h.before⟩
  · rw [he, hl]
    exact h.exec
  · rw [hw, hl]
    exact h.wait
  · rw [ho, hl]
    exact h.exit
  · rw [hl]
    exact h.exit2

theorem HandsOver.congr (h : HandsOver c p x q) (hx : x'.view = x.view) : HandsOver c p x' q := by
  have hpc := view_pc hx
  exact h.moved (view_pair hx) (by rw [hpc]) (by rw [hpc]) (by rw [hpc])

/-- **A step of thread `t`** that changes, besides `t` itself, at most its child `c`. -/
theorem Locks.update (h : Locks s) (hc : c = t ∨ (s.proc c).parent = some t)
    (next : s'.nextTid = s.nextTid)
    (other : ∀ u, u ≠ t → u ≠ c → (s'.proc u).view = (s.proc u).view)
    (life : ∀ u, (s'.proc u).life = (s.proc u).life)
    (parent : ∀ u, (s'.proc u).parent = (s.proc u).parent)
    (pc : c ≠ t → (s'.proc c).pc = (s.proc c).pc)
    (target : ∀ d, (s'.proc t).pc.target = some d → (s.proc d).parent = some t)
    (rest : ∀ d, d ≠ c ∨ c = t → (s'.proc t).pc.towards d = (s.proc t).pc.towards d)
    (own : ∀ p, (s.proc t).parent = some p →
      HandsOver t p (s.proc t) ((s.proc p).pc.towards t) →
      HandsOver t p (s'.proc t) ((s.proc p).pc.towards t)) (kid : c ≠ t → (s.proc c).life = .alive →
      HandsOver c t (s.proc c) ((s.proc t).pc.towards c) →
      HandsOver c t (s'.proc c) ((s'.proc t).pc.towards c)) : Locks s' := by
  have hpcs : ∀ u, u ≠ t → (s'.proc u).pc = (s.proc u).pc := by
    intro u hu
    by_cases huc : u = c
    · subst huc
      exact pc hu
    · exact view_pc (other u hu huc)
  refine ⟨?_, ?_, ?_, ?_⟩
  · intro u hu
    rw [life, parent]
    exact h.fresh u (next ▸ hu)
  · intro d p hp
    exact h.older d p (parent d ▸ hp)
  · intro u d hd
    rw [parent]
    by_cases hu : u = t
    · subst hu
      exact target d hd
    · exact h.targets u d (hpcs u hu ▸ hd)
  · intro d p hd hp
    have hd' : (s.proc d).life = .alive := life d ▸ hd
    have hp' : (s.proc d).parent = some p := parent d ▸ hp
    have hpd : p < d := h.older d p hp'
    have hold := h.pairs d p hd' hp'
    by_cases hdt : d = t
    · subst hdt
      rw [hpcs p (Nat.ne_of_lt hpd)]
      exact own p hp' hold
    · by_cases hpt : p = t
      · subst hpt
        by_cases hdc : d = c
        · subst hdc
          exact kid hdt hd' hold
        · rw [rest d (.inl hdc)]
          exact hold.congr (other d hdt hdc)
      · have hdc : d ≠ c := by
          rintro rfl
          rcases hc with hc | hc
          · exact hdt hc
          · exact hpt (Option.some.inj (hp'.symm.trans hc))
        rw [hpcs p hpt]
        exact hold.congr (other d hdt hdc)

/-- Two states that the lock protocol does not tell apart. -/
structure Sim (s s' : PSys) : Prop where
  next : s'.nextTid = s.nextTid
  proc : ∀ u, (s'.proc u).view = (s.proc u).view

theorem Sim.trans (h : Sim s s') (h' : Sim s' s'') : Sim s s'' :=
  ⟨h'.next.trans h.next, fun u => (h'.proc u).trans (h.proc u)⟩

theorem Sim.modify (h : Sim s s') (t : Tid) (f : Proc → Proc)
    (hf : ∀ x y : Proc, x.view = y.view → (f x).view = (f y).view) :
    Sim (s.modify t f) (s'.modify t f) := by
  refine ⟨h.next, fun u => ?_⟩
  simp only [PSys.proc_modify]
  by_cases hu : u = t
  · rw [if_pos hu, if_pos hu]
    exact hf _ _ (h.proc t)
  · rw [if_neg hu, if_neg hu]
    exact h.proc u

theorem Sim.goto (h : Sim s s') (t : Tid) (pc : PC) : Sim (s.goto t pc) (s'.goto t pc) := by
  refine h.modify t _ fun x y hv => ?_
  simp only [Proc.view, view_life hv, view_parent hv, view_pair hv]

theorem sim_modify (s : PSys) (t : Tid) (hf : ∀ x, (f x).view = x.view) : Sim s (s.modify t f) := by
  refine ⟨rfl, fun u => ?_⟩
  simp only [PSys.proc_modify]
  split
  · rename_i hu
    rw [hu, hf]
  · rfl

theorem sim_goto (s : PSys) (t : Tid) (pc : PC)
    (hf : ∀ x : Proc, (f x).view = ({ x with pc := pc } : Proc).view) :
    Sim (s.goto t pc) (s.modify t f) := by
  refine ⟨rfl, fun u => ?_⟩
  simp only [PSys.goto, PSys.proc_modify]
  split
  · rw [hf]
  · rfl

theorem sim_touch (s : PSys) (c : Tid) : Sim s (s.touch c) :=
  ⟨s.nextTid_touch c, fun u => congrArg Proc.view (s.proc_touch c u)⟩

theorem sim_crash (s : PSys) (e : Crash) (t : Tid) : Sim s (s.crash e t) := ⟨rfl, fun _ => rfl⟩

theorem sim_setLock (s : PSys) (c : Tid) {l : LockName} {y z : PLock} (h : y.pair = z.pair) :
    Sim (s.setLock c l y) (s.setLock c l z) := by
  refine ⟨rfl, fun u => ?_⟩
  simp only [PSys.setLock, PSys.proc_modify]
  split
  · simp only [Proc.view, LockView.mk.injEq, true_and]
    funext l'
    by_cases hl : l' = l
    · subst hl
      simp [h]
    · simp [hl]
  · rfl

theorem sim_wait (s : PSys) (t c : Tid) (l : LockName) (ws : List Tid) :
    Sim s ((s.setLock c l { (s.proc c).lock l with waiters := ws }).block t c l) := by
  refine Sim.trans ?_ (sim_modify _ t fun _ => rfl)
  refine Sim.trans ?_ (sim_setLock s c (y := (s.proc c).lock l) rfl)
  rw [PSys.setLock]
  refine ⟨rfl, fun u => ?_⟩
  simp only [PSys.proc_modify]
  split
  · rename_i hu
    rw [hu, update_eq_self]
  · rfl

/-- The lock after `sema_up`, up to its waiters. -/
def PLock.upped (x : PLock) : PLock := { x with value := x.value + 1 }

theorem sim_plockUp (s : PSys) (c : Tid) (l : LockName) (g : ℕ) :
    Sim (s.setLock c l ((s.proc c).lock l).upped) (plockUp s c l g) := by
  unfold plockUp
  dsimp only
  split
  · exact sim_setLock s c rfl
  · refine Sim.trans (sim_setLock s c ?_) (sim_modify _ _ fun _ => rfl)
    rfl

theorem Locks.sim (h : Locks s) (hs : Sim s s') : Locks s' := by
  have life (u) : (s'.proc u).life = (s.proc u).life := view_life (hs.proc u)
  have parent (u) : (s'.proc u).parent = (s.proc u).parent := view_parent (hs.proc u)
  have pc (u) : (s'.proc u).pc = (s.proc u).pc := view_pc (hs.proc u)
  refine ⟨fun u hu => ?_, fun d p hp => ?_, fun u d hd => ?_, fun d p hd hp => ?_⟩
  · rw [life, parent]
    exact h.fresh u (hs.next ▸ hu)
  · exact h.older d p (parent d ▸ hp)
  · rw [parent]
    exact h.targets u d (pc u ▸ hd)
  · rw [pc]
    exact (h.pairs d p (life d ▸ hd) (parent d ▸ hp)).congr (hs.proc d)

/-! ## 3. One stage further -/

section Stages

variable {owner taker child parent : Tid} {r : RelStage} {a : AcqStage} {e : ExitStage} {v : ℕ}
  {o : Option Tid}

theorem handOver_take (h : handOver owner taker r .notYet = some (v, o)) (hv : v ≠ 0) :
    handOver owner taker r .downed = some (v - 1, o) := by
  cases r <;> cases h <;> first | exact absurd rfl hv | rfl

theorem handOver_hold (h : handOver owner taker r .downed = some (v, o)) :
    handOver owner taker r .held = some (v, some taker) := by
  cases r <;> cases h
  rfl

theorem handOver_clear (h : handOver owner taker .held a = some (v, o)) :
    handOver owner taker .cleared a = some (v, none) := by
  cases a <;> cases h
  rfl

theorem handOver_up (h : handOver owner taker .cleared a = some (v, o)) :
    handOver owner taker .upped a = some (v + 1, o) := by
  cases a <;> cases h
  rfl

theorem exitLock_take (h : exitLock child parent .notYet a = some (v, o)) :
    exitLock child parent .downed a = some (v - 1, o) := by
  cases a <;> cases h
  rfl

theorem exitLock_hold (h : exitLock child parent .downed a = some (v, o)) :
    exitLock child parent .held a = some (v, some parent) := by
  cases a <;> cases h
  rfl

theorem exitLock_clear (h : exitLock child parent .held a = some (v, o)) :
    exitLock child parent .cleared a = some (v, none) := by
  cases a <;> cases h
  rfl

theorem exitLock_up (h : exitLock child parent .cleared a = some (v, o)) :
    exitLock child parent .upped a = some (v + 1, o) := by
  cases a <;> cases h
  rfl

theorem exitLock_own_take (h : exitLock child parent e .notYet = some (v, o)) (hv : v ≠ 0)
    (he : e ≠ .notYet) : exitLock child parent e .downed = some (v - 1, o) := by
  cases e <;> cases h <;> first | exact absurd rfl hv | exact absurd rfl he | rfl

theorem exitLock_own_hold (h : exitLock child parent e .downed = some (v, o)) :
    exitLock child parent e .held = some (v, some child) := by
  cases e <;> cases h
  rfl

variable {x : PLock}

theorem handOver_owner (h : handOver owner taker .held a = some x.pair) : x.holder = some owner := by
  cases a with
  | notYet => exact (congrArg Prod.snd (Option.some.inj h)).symm
  | downed | held => cases h

theorem handOver_waiting (h : handOver owner taker r .notYet = some x.pair) :
    x.holder = none ∨ x.holder = some owner := by
  have hx : x.pair.2 = x.holder := rfl
  cases r <;> rw [← hx, ← Option.some.inj h] <;> simp

theorem handOver_ready (h : handOver owner taker .upped .notYet = some x.pair) : x.value = 1 :=
  (congrArg Prod.fst (Option.some.inj h)).symm

end Stages

/-! ## 4. Steps on a child, and steps on oneself -/

/-- Neither in `start_process` nor in `thread_exit`. -/
structure PC.Outside (pc : PC) : Prop where
  relExec : pc.relExec = .upped
  relWait : pc.relWait = .held
  ownExit : pc.ownExit = .notYet

theorem PC.outside_of_target (h : pc.target = some c) : pc.Outside := by
  cases pc <;> first | exact ⟨rfl, rfl, rfl⟩ | simp [target] at h

/-- The part of a child that its parent's calls may not change. -/
structure Keeps (f : Proc → Proc) : Prop where
  life : ∀ x, (f x).life = x.life
  parent : ∀ x, (f x).parent = x.parent
  pc : ∀ x, (f x).pc = x.pc

theorem keeps_id : Keeps fun x => x := ⟨fun _ => rfl, fun _ => rfl, fun _ => rfl⟩

theorem keeps_lock (l : LockName) (y : Proc → PLock) :
    Keeps fun x => { x with lock := update x.lock l (y x) } :=
  ⟨fun _ => rfl, fun _ => rfl, fun _ => rfl⟩

/-- **A step of a call about the child `c`**, which applies `f` to the child. -/
theorem Locks.call (h : Locks s) (hp : (s.proc c).parent = some t) (hf : Keeps f)
    (hout : (s.proc t).pc.Outside) (hat : ∀ d, (s.proc t).pc.target = some d → d = c)
    (hout' : pc.Outside) (hat' : ∀ d, pc.target = some d → d = c)
    (kid : (s.proc c).life = .alive → HandsOver c t (s.proc c) ((s.proc t).pc.towards c) →
      HandsOver c t (f (s.proc c)) (pc.towards c)) : Locks ((s.modify c f).goto t pc) := by
  have hne : t ≠ c := Nat.ne_of_lt (h.older c t hp)
  have hpt : ((s.modify c f).goto t pc).proc t = { s.proc t with pc := pc } := by
    simp [PSys.goto, hne]
  have hpc : ((s.modify c f).goto t pc).proc c = f (s.proc c) := by
    simp [PSys.goto, hne.symm]
  have hpo : ∀ u, u ≠ t → u ≠ c → ((s.modify c f).goto t pc).proc u = s.proc u := by
    intro u hut huc
    simp [PSys.goto, hut, huc]
  have cases3 : ∀ P : Tid → Prop, P t → P c → (∀ u, u ≠ t → u ≠ c → P u) → ∀ u, P u := by
    intro P h1 h2 h3 u
    by_cases hut : u = t
    · exact hut ▸ h1
    · by_cases huc : u = c
      · exact huc ▸ h2
      · exact h3 u hut huc
  refine h.update (.inr hp) rfl (fun u h1 h2 => by rw [hpo u h1 h2]) ?_ ?_ ?_ ?_ ?_ ?_ ?_
  · refine cases3 _ (by rw [hpt]) (by rw [hpc, hf.life]) (fun u h1 h2 => by rw [hpo u h1 h2])
  · refine cases3 _ (by rw [hpt]) (by rw [hpc, hf.parent]) (fun u h1 h2 => by rw [hpo u h1 h2])
  · intro _
    rw [hpc, hf.pc]
  · intro d hd
    rw [hpt] at hd
    rw [hat' d hd]
    exact hp
  · rintro d (hd | hd)
    · rw [hpt, PC.towards_of_ne fun e => hd (hat' d e), PC.towards_of_ne fun e => hd (hat d e)]
    · exact absurd hd.symm hne
  · intro p _ hq
    rw [hpt]
    exact hq.moved (fun _ => rfl) (hout'.relExec.trans hout.relExec.symm)
      (hout'.relWait.trans hout.relWait.symm) (hout'.ownExit.trans hout.ownExit.symm)
  · intro _ halive hq
    rw [hpt, hpc]
    exact kid halive hq

/-- **A step of a process on itself**, away from the calls about a child. -/
theorem Locks.self (h : Locks s) (hlife : (f (s.proc t)).life = (s.proc t).life)
    (hparent : (f (s.proc t)).parent = (s.proc t).parent) (hat : (s.proc t).pc.target = none)
    (hat' : (f (s.proc t)).pc.target = none) (own : ∀ p, (s.proc t).parent = some p →
      HandsOver t p (s.proc t) ((s.proc p).pc.towards t) →
      HandsOver t p (f (s.proc t)) ((s.proc p).pc.towards t)) : Locks (s.modify t f) := by
  have hpt : (s.modify t f).proc t = f (s.proc t) := by simp
  have hpo : ∀ u, u ≠ t → (s.modify t f).proc u = s.proc u := by
    intro u hu
    simp [hu]
  refine h.update (c := t) (.inl rfl) rfl (fun u hu _ => by rw [hpo u hu]) ?_ ?_
    (fun hne => absurd rfl hne) ?_ ?_ ?_ (fun hne => absurd rfl hne)
  · intro u
    by_cases hu : u = t
    · rw [hu, hpt, hlife]
    · rw [hpo u hu]
  · intro u
    by_cases hu : u = t
    · rw [hu, hpt, hparent]
    · rw [hpo u hu]
  · intro d hd
    rw [hpt, hat'] at hd
    cases hd
  · intro d _
    rw [hpt, PC.towards_of_ne (by simp [hat']), PC.towards_of_ne (by simp [hat])]
  · intro p hp hq
    rw [hpt]
    exact own p hp hq

/-- A store to lock `l`. -/
def Proc.withLock (x : Proc) (l : LockName) (y : PLock) : Proc :=
  { x with lock := update x.lock l y }

variable {r : Rel}

section Call

variable {s : PSys} {t c : Tid} {l : LockName} {g : ℕ} {done : PC}

theorem Locks.within (h : Locks s) (hp : (s.proc c).parent = some t) (hf : Keeps f)
    (ht : (s.proc t).pc.target = some c) (ht' : pc'.target = some c)
    (kid : (s.proc c).life = .alive → HandsOver c t (s.proc c) (s.proc t).pc →
      HandsOver c t (f (s.proc c)) pc') : Locks ((s.modify c f).goto t pc') := by
  refine h.call hp hf (PC.outside_of_target ht) ?_ (PC.outside_of_target ht') ?_ ?_
  · intro d hd
    exact Option.some.inj (hd.symm.trans ht)
  · intro d hd
    exact Option.some.inj (hd.symm.trans ht')
  · rw [PC.towards_of_target ht, PC.towards_of_target ht']
    exact kid

theorem Locks.onward (h : Locks s) (ht : (s.proc t).pc.target = some c) (ht' : pc'.target = some c)
    (kid : (s.proc c).life = .alive → HandsOver c t (s.proc c) (s.proc t).pc →
      HandsOver c t (s.proc c) pc') : Locks (s.goto t pc') := by
  have := h.within (h.targets t c ht) keeps_id ht ht' kid
  rwa [PSys.modify_id] at this

theorem Locks.silent (h : Locks s) (hpc : (s.proc t).pc = pc) (ht : pc.target = some c)
    (ht' : pc'.target = some c) (he : pc'.takeExec = pc.takeExec) (hw : pc'.takeWait = pc.takeWait)
    (hx : pc'.useExit = pc.useExit) (hx2 : pc'.takeExit2 = pc.takeExit2) :
    Locks (s.goto t pc') := by
  subst hpc
  exact h.onward ht ht' fun _ hq =>
    ⟨he ▸ hq.exec, hw ▸ hq.wait, hx ▸ hq.exit, hq.exit2, hx2.trans hq.before⟩

theorem Locks.acquire {k : Acq → PC} {a : Acq} (h : Locks s) (hpc : (s.proc t).pc = k a)
    (hk : ∀ b, (k b).target = some c) (hd : done.target = some c)
    (check : ∀ x, HandsOver c t x (k .lookup) → HandsOver c t x (k .check))
    (down : ∀ x, HandsOver c t x (k .check) → HandsOver c t x (k .down))
    (take : ∀ x : Proc, (x.lock l).value ≠ 0 → HandsOver c t x (k .down) → HandsOver c t
      (x.withLock l { x.lock l with value := (x.lock l).value - 1 }) (k .hold))
    (hold : ∀ x : Proc, HandsOver c t x (k .hold) →
      HandsOver c t (x.withLock l { x.lock l with holder := some t }) done) :
    Locks (acquireStep s t c l g k done a) := by
  have ht : (s.proc t).pc.target = some c := hpc ▸ hk a
  have hp := h.targets t c ht
  -- a dead child has no locks to account for
  have gone : ∀ pc', pc'.target = some c → ¬s.onAllList c = true →
      Locks ((s.touch c).goto t pc') := by
    intro pc' ht' hdead
    refine (h.onward ht ht' fun ha => ?_).sim ((sim_touch s c).goto t pc')
    exact absurd ((s.onAllList_iff c).mpr ha) hdead
  cases a with
  | lookup =>
    simp only [acquireStep]
    split
    · exact h.onward ht (hk _) fun _ hq => check _ (hpc ▸ hq)
    · exact h.sim (sim_crash s _ t)
  | check =>
    have hcrash : Locks ((s.touch c).crash .assertion t) :=
      (h.sim (sim_touch s c)).sim (sim_crash _ _ t)
    have hgo : Locks ((s.touch c).goto t (k .down)) :=
      (h.onward ht (hk .down) fun _ hq => down _ (hpc ▸ hq)).sim ((sim_touch s c).goto t _)
    simp only [acquireStep]
    split <;> split <;> assumption
  | down =>
    simp only [acquireStep]
    split
    · split
      · exact h.sim (sim_wait s t c l _)
      · exact h.within hp (keeps_lock l fun _ => _) ht (hk .hold)
          fun _ hq => take _ ‹_› (hpc ▸ hq)
    · split
      · exact (h.sim (sim_touch s c)).sim (sim_modify _ t fun _ => rfl)
      · exact gone _ (hk .hold) ‹_›
  | hold =>
    simp only [acquireStep]
    split
    · exact h.within hp (keeps_lock l fun _ => _) ht hd fun _ hq => hold _ (hpc ▸ hq)
    · exact gone _ hd ‹_›

theorem Locks.release (h : Locks s) (hpc : (s.proc t).pc = k r) (hk : ∀ b, (k b).target = some c)
    (hd : done.target = some c)
    (check : ∀ x, HandsOver c t x (k .lookup) → HandsOver c t x (k .check))
    (found : ∀ x, HandsOver c t x (k .check) → HandsOver c t x (k .clear))
    (clear : ∀ x : Proc, HandsOver c t x (k .clear) →
      HandsOver c t (x.withLock l { x.lock l with holder := none }) (k .up))
    (up : ∀ x : Proc, HandsOver c t x (k .up) →
      HandsOver c t (x.withLock l (x.lock l).upped) done) :
    Locks (releaseStep s t c l g k done r) := by
  have ht : (s.proc t).pc.target = some c := hpc ▸ hk r
  have hp := h.targets t c ht
  have gone : ∀ pc', pc'.target = some c → ¬s.onAllList c = true →
      Locks ((s.touch c).goto t pc') := by
    intro pc' ht' hdead
    refine (h.onward ht ht' fun ha => ?_).sim ((sim_touch s c).goto t pc')
    exact absurd ((s.onAllList_iff c).mpr ha) hdead
  cases r with
  | lookup =>
    simp only [releaseStep]
    split
    · exact h.onward ht (hk _) fun _ hq => check _ (hpc ▸ hq)
    · exact h.sim (sim_crash s _ t)
  | check =>
    have hcrash : Locks ((s.touch c).crash .assertion t) :=
      (h.sim (sim_touch s c)).sim (sim_crash _ _ t)
    have hgo : Locks ((s.touch c).goto t (k .clear)) :=
      (h.onward ht (hk .clear) fun _ hq => found _ (hpc ▸ hq)).sim ((sim_touch s c).goto t _)
    simp only [releaseStep]
    split <;> split <;> assumption
  | clear =>
    simp only [releaseStep]
    split
    · exact h.within hp (keeps_lock l fun _ => _) ht (hk .up) fun _ hq => clear _ (hpc ▸ hq)
    · exact gone _ (hk .up) ‹_›
  | up =>
    simp only [releaseStep]
    split
    · exact (h.within hp (keeps_lock l fun _ => _) ht hd fun _ hq => up _ (hpc ▸ hq)).sim
        ((sim_plockUp s c l g).goto t done)
    · exact gone _ hd ‹_›

end Call

section Self

variable {s : PSys} {t : Tid} {l : LockName} {g : ℕ} {done : PC}

theorem Locks.advance (h : Locks s) (hf : Keeps f) (ht : (s.proc t).pc.target = none)
    (ht' : pc'.target = none) (own : ∀ p, (s.proc t).parent = some p →
      HandsOver t p (s.proc t) ((s.proc p).pc.towards t) →
      HandsOver t p { f (s.proc t) with pc := pc' } ((s.proc p).pc.towards t)) :
    Locks ((s.modify t f).goto t pc') := by
  unfold PSys.goto
  rw [PSys.modify_modify]
  exact h.self (hf.life _) (hf.parent _) ht ht' own

theorem Locks.releaseSelf (h : Locks s) (hpc : (s.proc t).pc = k r) (hk : ∀ b, (k b).target = none)
    (hd : done.target = none) (check : ∀ p q x, x.pc = k .lookup → HandsOver t p x q →
      HandsOver t p { x with pc := k .check } q)
    (found : ∀ p q x, x.pc = k .check → HandsOver t p x q →
      HandsOver t p { x with pc := k .clear } q)
    (clear : ∀ p q x, x.pc = k .clear → HandsOver t p x q →
      HandsOver t p { x.withLock l { x.lock l with holder := none } with pc := k .up } q)
    (up : ∀ p q x, x.pc = k .up → HandsOver t p x q →
      HandsOver t p { x.withLock l (x.lock l).upped with pc := done } q)
    (halive : s.onAllList t = true) : Locks (releaseStep s t t l g k done r) := by
  have ht : (s.proc t).pc.target = none := hpc ▸ hk r
  cases r with
  | lookup =>
    rw [releaseStep, if_pos halive, ← PSys.modify_id s t]
    exact h.advance keeps_id ht (hk _) fun p _ hq => check p _ _ hpc hq
  | check =>
    have hcrash : Locks ((s.touch t).crash .assertion t) :=
      (h.sim (sim_touch s t)).sim (sim_crash _ _ t)
    have hgo : Locks ((s.touch t).goto t (k .clear)) := by
      refine Locks.sim ?_ ((sim_touch s t).goto t _)
      rw [← PSys.modify_id s t]
      exact h.advance keeps_id ht (hk _) fun p _ hq => found p _ _ hpc hq
    simp only [releaseStep]
    split <;> split <;> assumption
  | clear =>
    simp only [releaseStep, if_pos halive]
    exact h.advance (keeps_lock l fun _ => _) ht (hk _) fun p _ hq => clear p _ _ hpc hq
  | up =>
    simp only [releaseStep, if_pos halive]
    exact (h.advance (keeps_lock l fun _ => _) ht hd fun p _ hq => up p _ _ hpc hq).sim
      ((sim_plockUp s t l g).goto t done)

end Self

end Pintos
