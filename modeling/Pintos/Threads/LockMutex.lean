/-
  Subject:   One lock under any number of threads and any interleaving of `lock_acquire`,
             `lock_try_acquire`, `lock_acquire_other` and `lock_release`, statement by statement.

  The lock sits on the semaphore of Semaphore.lean: its calls are steps of that machine (`sys`) and
  stores to `holder`. A thread is somewhere in a call (`LockPhase`): between the assertion and
  `sema_down`, in the loop of `sema_down`, between `sema_down` and the store of `holder`, between the
  store of `NULL` and `sema_up`. An assertion is tested when the call starts; what it tested may be
  stale by the time of the next statement.

  `owners` is not in the source: a thread enters it with the last statement of an acquire, made by it
  or for it, and leaves it with the first statement of its release.

  The one unit of the semaphore is free, or some thread is on the way in, inside, or on the way out
  (`Token`); every statement keeps the token in one place.
-/
import Pintos.Threads.Semaphore

namespace Pintos

open Lib Function

/-! ## 1. The calls, statement by statement -/

/-- Where a thread is in a call on the lock. `u` is the thread that is to own it. -/
inductive LockPhase where
  | out
  | acquire (u : Tid)
  | downing (u : Tid)
  | gotDown (u : Tid)
  | tryAcquire
  | release
  | cleared
  deriving DecidableEq, Repr

structure LockSys where
  sys : SemaSys
  holder : Option Tid
  phase : Tid → LockPhase
  /-- The threads between a successful acquire and the matching release. -/
  owners : List Tid

inductive LockCall where
  | acquire
  | tryAcquire
  | acquireOther (u : Tid)
  | release
  deriving DecidableEq, Repr

inductive LockEvent where
  /-- `t` calls a function of the lock and passes its assertions. -/
  | call (t : Tid) (c : LockCall)
  /-- `t` executes its next statement. -/
  | go (t : Tid)
  /-- An interrupt handler calls `lock_try_acquire` while `t` runs. -/
  | interrupt (t : Tid)
  | setPriority (t : Tid) (priority : Int)
  | elsewhere (t : Tid) (status : ThreadStatus)
  deriving DecidableEq, Repr

namespace LockSys

/-- `lock_init`. -/
def lockInit (status : Tid → ThreadStatus) (priority : Tid → Int) : LockSys :=
  ⟨.semaInit 1 status priority, none, fun _ => .out, []⟩

def setPhase (l : LockSys) (t : Tid) (p : LockPhase) : LockSys :=
  { l with phase := update l.phase t p }

/-- The assertions at the start of a call, by thread `t`. -/
def asserts (l : LockSys) (t : Tid) : LockCall → Prop
  | .acquire => l.holder ≠ some t
  | .tryAcquire => l.holder ≠ some t
  | .acquireOther _ => True
  | .release => l.holder = some t

instance (l : LockSys) (t : Tid) (c : LockCall) : Decidable (l.asserts t c) :=
  match c with
  | .acquire => inferInstanceAs (Decidable (_ ≠ _))
  | .tryAcquire => inferInstanceAs (Decidable (_ ≠ _))
  | .acquireOther _ => inferInstanceAs (Decidable True)
  | .release => inferInstanceAs (Decidable (_ = _))

/-- Where a call begins. -/
def entry (t : Tid) : LockCall → LockPhase
  | .acquire => .acquire t
  | .tryAcquire => .tryAcquire
  | .acquireOther u => .acquire u
  | .release => .release

/-- `lock->holder = u`, the end of an acquire. -/
def setHolder (l : LockSys) (u : Tid) : LockSys :=
  { l with holder := some u, owners := u :: l.owners }

/-- `lock->holder = NULL`, the start of the release by `t`. -/
def clearHolder (l : LockSys) (t : Tid) : LockSys :=
  { l with holder := none, owners := l.owners.erase t }

/-- Where the test of `sema_down` leads: with a value of 0 the thread waits. -/
def afterTest (l : LockSys) (u : Tid) : LockPhase :=
  if l.sys.sema.value = 0 then .downing u else .gotDown u

/-- A step of the semaphore by `t`, which is in phase `p` after it. -/
def onSema (l : LockSys) (t : Tid) (e : SemaEvent) (p : LockPhase) : Option LockSys :=
  (semaStep l.sys e).map fun s => { l with sys := s }.setPhase t p

/-- The next statement of `t`. -/
def go (l : LockSys) (t : Tid) : Option LockSys :=
  match l.phase t with
  | .out => none
  | .acquire u => l.onSema t (.down t) (l.afterTest u)
  | .downing u => l.onSema t (.retest t) (l.afterTest u)
  | .gotDown u => some ((l.setHolder u).setPhase t .out)
  | .tryAcquire => l.onSema t .tryDown (if 0 < l.sys.sema.value then .gotDown t else .out)
  | .release => some ((l.clearHolder t).setPhase t .cleared)
  | .cleared => l.onSema t .up .out

/-- `lock_try_acquire` with interrupts off throughout; `thread_current ()` is `t`. -/
def interruptTry (l : LockSys) (t : Tid) : LockSys :=
  if 0 < l.sys.sema.value then { l with sys := .counted l.sys.semaTryDown }.setHolder t else l

/-- `t` is between the two statements of an acquire or of a release. -/
def Between (l : LockSys) (t : Tid) : Prop :=
  (∃ u, l.phase t = .gotDown u) ∨ l.phase t = .cleared

end LockSys

def lockStep (l : LockSys) : LockEvent → Option LockSys
  | .call t c =>
    if l.phase t = .out ∧ l.sys.status t ≠ .blocked ∧ l.asserts t c then
      some (l.setPhase t (LockSys.entry t c))
    else none
  | .go t => if l.sys.status t ≠ .blocked then l.go t else none
  | .interrupt t =>
    if l.sys.status t ≠ .blocked ∧ l.asserts t .tryAcquire then some (l.interruptTry t) else none
  | .setPriority t p =>
    (semaStep l.sys (.setPriority t p)).map fun s => { l with sys := s }
  | .elsewhere t st => (semaStep l.sys (.elsewhere t st)).map fun s => { l with sys := s }

/-! ## 2. The value of the semaphore -/

namespace SemaSys

variable {s s' : SemaSys} {t : Tid}

theorem semaTest_value : (s.semaTest t).2.sema.value = s.sema.value - 1 := by
  unfold semaTest
  split
  · rename_i h
    show s.sema.value = s.sema.value - 1
    rw [h]
  · rfl

theorem semaTryDown_value : s.semaTryDown.2.sema.value = s.sema.value - 1 := by
  unfold semaTryDown
  split
  · rfl
  · show s.sema.value = s.sema.value - 1
    omega

theorem down_value (h : semaStep s (.down t) = some s') : s'.sema.value = s.sema.value - 1 := by
  simp only [semaStep] at h
  split at h
  · cases h
    exact semaTest_value
  · cases h

theorem retest_value (h : semaStep s (.retest t) = some s') : s'.sema.value = s.sema.value - 1 := by
  simp only [semaStep] at h
  split at h
  · cases h
    exact semaTest_value
  · cases h

theorem up_value (h : semaStep s .up = some s') (hv : s.sema.value = 0) : s'.sema.value = 1 := by
  obtain ⟨x, hx, rfl⟩ := Option.map_eq_some_iff.mp h
  show x.sema.value = 1
  rw [(semaUp_value hx).1, hv]
  decide

theorem elsewhere_value {st : ThreadStatus} (h : semaStep s (.elsewhere t st) = some s') :
    s'.sema.value = s.sema.value := by
  simp only [semaStep] at h
  split at h
  · cases h
    rfl
  · cases h

end SemaSys

/-! ## 3. The token -/

/-- Where the unit of the semaphore is. -/
inductive Token where
  | free
  /-- `sema_down` or `sema_try_down` gave it to `t`, `holder` is not yet stored. -/
  | taken (t : Tid)
  | held (t : Tid)
  /-- `t` has stored `NULL` and not yet called `sema_up`. -/
  | leaving (t : Tid)
  deriving DecidableEq

variable {u : Tid} {p q : LockPhase} {k' : Token} {e : LockEvent}

namespace Token

def value : Token → ℕ
  | .free => 1
  | _ => 0

def holder : Token → Option Tid
  | .held t => some t
  | _ => none

/-- What the phase of `t` says about the token. -/
def Fits (k : Token) (t : Tid) : LockPhase → Prop
  | .gotDown _ => k = .taken t
  | .release => k = .held t
  | .cleared => k = .leaving t
  | _ => k ≠ .taken t ∧ k ≠ .leaving t

variable {k : Token} {t : Tid}

theorem eq_free (h : 0 < k.value) : k = .free := by
  cases k with
  | free => rfl
  | _ => cases h

theorem eq_held (h : k.holder = some t) : k = .held t := by
  cases k with
  | held u =>
    cases h
    rfl
  | _ => cases h

/-- While the token is free nobody is on the way in or out, so it can go to another thread than
    `u`, or to any owner. -/
theorem Fits.of_free (h : Token.free.Fits u p) (hk : (k = .taken t ∧ u ≠ t) ∨ k = .held t) :
    k.Fits u p := by
  have hne : k ≠ .taken u ∧ k ≠ .leaving u := by
    rcases hk with ⟨rfl, hu⟩ | rfl
    · exact ⟨fun e => hu (by cases e; rfl), nofun⟩
    · exact ⟨nofun, nofun⟩
  cases p with
  | gotDown | release | cleared => cases h
  | _ => exact hne

/-- The token moves from one place at `t` to another; nobody else is concerned. -/
theorem Fits.of_own (h : k.Fits u p) (hu : u ≠ t) (hk : k = .taken t ∨ k = .held t ∨ k = .leaving t)
    (hk' : k' = .free ∨ (∃ v, k' = .held v) ∨ k' = .leaving t) (hr : p = .release → k = .held t) :
    k'.Fits u p := by
  have hne : k' ≠ .taken u ∧ k' ≠ .leaving u := by
    rcases hk' with rfl | ⟨v, rfl⟩ | rfl
    · exact ⟨nofun, nofun⟩
    · exact ⟨nofun, nofun⟩
    · exact ⟨nofun, fun e => hu (by cases e; rfl)⟩
  cases p with
  | gotDown v | release | cleared =>
    rcases hk with rfl | rfl | rfl <;> cases h
    exact absurd rfl hu
  | _ => exact hne

end Token

/-- **The token is in one place**, and value, holder, owners and phases say so. -/
structure LockInv (l : LockSys) (k : Token) : Prop where
  value : l.sys.sema.value = k.value
  holder : l.holder = k.holder
  owners : l.owners = k.holder.toList
  phase : ∀ t, k.Fits t (l.phase t)

namespace LockInv

variable {l l' : LockSys} {k : Token} {t : Tid}

theorem init (status : Tid → ThreadStatus) (priority : Tid → Int) :
    LockInv (.lockInit status priority) .free where
  value := rfl
  holder := rfl
  owners := rfl
  phase _ := ⟨nofun, nofun⟩

section

variable (h : LockInv l k)

include h

theorem setPhase (hp : k.Fits t p) : LockInv (l.setPhase t p) k where
  value := h.value
  holder := h.holder
  owners := h.owners
  phase u := by
    by_cases e : u = t
    · subst e
      simpa only [LockSys.setPhase, update_self] using hp
    · simpa only [LockSys.setPhase, update_of_ne e] using h.phase u

variable {s : SemaSys}

theorem setSys (hv : s.sema.value = l.sys.sema.value) : LockInv { l with sys := s } k :=
  ⟨hv.trans h.value, h.holder, h.owners, h.phase⟩

theorem move {o : Option Tid} {w : List Tid} (hv : s.sema.value = k'.value) (ho : o = k'.holder)
    (hw : w = k'.holder.toList) (hp : k'.Fits t p)
    (hu : ∀ u, u ≠ t → k.Fits u (l.phase u) → k'.Fits u (l.phase u)) :
    LockInv (LockSys.setPhase ⟨s, o, l.phase, w⟩ t p) k' where
  value := hv
  holder := ho
  owners := hw
  phase u := by
    by_cases e : u = t
    · subst e
      simpa only [LockSys.setPhase, update_self] using hp
    · simpa only [LockSys.setPhase, update_of_ne e] using hu u e (h.phase u)

/-- **A test of `sema_down`, or `sema_try_down`**: with a value of 0 the thread goes to `q`, which
    says nothing about the token; else it has the token. -/
theorem test (hv : s.sema.value = l.sys.sema.value - 1) (hk : k ≠ .taken t ∧ k ≠ .leaving t)
    (hq : ∀ k : Token, k ≠ .taken t ∧ k ≠ .leaving t → k.Fits t q) :
    ∃ k', LockInv ({ l with sys := s }.setPhase t
      (if l.sys.sema.value = 0 then q else .gotDown u)) k' := by
  split
  · rename_i hz
    exact ⟨k, (h.setSys (by rw [hv, hz])).setPhase (hq k hk)⟩
  · rename_i hz
    have hfree : k = .free := Token.eq_free (h.value ▸ Nat.pos_of_ne_zero hz)
    subst hfree
    refine ⟨.taken t, h.move ?_ h.holder h.owners rfl fun u hu hf => hf.of_free (.inl ⟨rfl, hu⟩)⟩
    rw [hv, h.value]
    rfl

theorem go (hs : l.go t = some l') : ∃ k', LockInv l' k' := by
  have ht := h.phase t
  unfold LockSys.go at hs
  cases hp : l.phase t with
  | out =>
    rw [hp] at hs
    cases hs
  | acquire u =>
    rw [hp] at hs ht
    obtain ⟨s, hd, rfl⟩ := Option.map_eq_some_iff.mp hs
    exact h.test (SemaSys.down_value hd) ht fun _ hk => hk
  | downing u =>
    rw [hp] at hs ht
    obtain ⟨s, hd, rfl⟩ := Option.map_eq_some_iff.mp hs
    exact h.test (SemaSys.retest_value hd) ht fun _ hk => hk
  | gotDown u =>
    rw [hp] at hs ht
    cases hs
    have htok : k = .taken t := ht
    subst htok
    refine ⟨.held u, h.move h.value rfl (by rw [h.owners]; rfl) ⟨nofun, nofun⟩ ?_⟩
    exact fun v hv hf => hf.of_own hv (.inl rfl) (.inr (.inl ⟨u, rfl⟩)) fun hr => by
      rw [hr] at hf
      cases hf
  | tryAcquire =>
    rw [hp] at hs ht
    obtain ⟨s, hd, rfl⟩ := Option.map_eq_some_iff.mp hs
    cases hd
    have hif : (if 0 < l.sys.sema.value then LockPhase.gotDown t else .out) =
        if l.sys.sema.value = 0 then .out else .gotDown t := by
      by_cases hz : l.sys.sema.value = 0
      · rw [if_pos hz, if_neg (by omega)]
      · rw [if_neg hz, if_pos (by omega)]
    rw [hif]
    exact h.test SemaSys.semaTryDown_value ht fun _ hk => hk
  | release =>
    rw [hp] at hs ht
    cases hs
    have htok : k = .held t := ht
    subst htok
    refine ⟨.leaving t, h.move h.value rfl ?_ rfl ?_⟩
    · rw [h.owners]
      exact List.erase_cons_head ..
    · exact fun v hv hf => hf.of_own hv (.inr (.inl rfl)) (.inr (.inr rfl)) fun _ => rfl
  | cleared =>
    rw [hp] at hs ht
    obtain ⟨s, hd, rfl⟩ := Option.map_eq_some_iff.mp hs
    have htok : k = .leaving t := ht
    subst htok
    refine ⟨.free, h.move (SemaSys.up_value hd h.value) h.holder h.owners ⟨nofun, nofun⟩ ?_⟩
    exact fun v hv hf => hf.of_own hv (.inr (.inr rfl)) (.inl rfl) fun hr => by
      rw [hr] at hf
      cases hf

theorem call {c : LockCall} (hout : l.phase t = .out) (ha : l.asserts t c) :
    LockInv (l.setPhase t (LockSys.entry t c)) k := by
  have ht := h.phase t
  rw [hout] at ht
  refine h.setPhase ?_
  cases c with
  | release => exact Token.eq_held (h.holder.symm.trans ha)
  | _ => exact ht

/-- `lock_try_acquire` in an interrupt handler. The thread it interrupted may be in any phase. -/
theorem interruptTry : ∃ k', LockInv (l.interruptTry t) k' := by
  unfold LockSys.interruptTry
  split
  · rename_i hv
    have hfree : k = .free := Token.eq_free (h.value ▸ hv)
    subst hfree
    refine ⟨.held t, ?_, rfl, by show _ :: l.owners = _; rw [h.owners]; rfl, fun u => ?_⟩
    · show l.sys.semaTryDown.2.sema.value = 0
      rw [SemaSys.semaTryDown_value, h.value]
      rfl
    · exact (h.phase u).of_free (.inr rfl)
  · exact ⟨k, h⟩

theorem step (hs : lockStep l e = some l') : ∃ k', LockInv l' k' := by
  cases e with
  | call t c =>
    simp only [lockStep] at hs
    split at hs
    · rename_i hc
      cases hs
      exact ⟨k, h.call hc.1 hc.2.2⟩
    · cases hs
  | go t =>
    simp only [lockStep] at hs
    split at hs
    · exact h.go hs
    · cases hs
  | interrupt t =>
    simp only [lockStep] at hs
    split at hs
    · cases hs
      exact h.interruptTry
    · cases hs
  | setPriority t p =>
    cases hs
    exact ⟨k, h.setSys rfl⟩
  | elsewhere t st =>
    obtain ⟨s, hd, rfl⟩ := Option.map_eq_some_iff.mp hs
    exact ⟨k, h.setSys (SemaSys.elsewhere_value hd)⟩

theorem between_iff : l.Between t ↔ k = .taken t ∨ k = .leaving t := by
  have ht := h.phase t
  constructor
  · rintro (⟨u, hp⟩ | hp)
    · rw [hp] at ht
      exact .inl ht
    · rw [hp] at ht
      exact .inr ht
  · intro hk
    cases hp : l.phase t with
    | gotDown u => exact .inl ⟨u, hp⟩
    | cleared => exact .inr hp
    | release =>
      rw [hp] at ht
      rcases hk with rfl | rfl <;> cases ht
    | _ =>
      rw [hp] at ht
      rcases hk with hk | hk
      · exact absurd hk ht.1
      · exact absurd hk ht.2

end

end LockInv

/-! ## 4. The semaphore of the lock -/

section Sema

variable {l l' : LockSys} {t : Tid}

theorem onSema_sema {e : SemaEvent} (hs : l.onSema t e p = some l') :
    semaStep l.sys e = some l'.sys := by
  obtain ⟨s, hd, rfl⟩ := Option.map_eq_some_iff.mp hs
  exact hd

theorem lockStep_sema (hs : lockStep l e = some l') :
    l'.sys = l.sys ∨ ∃ e', semaStep l.sys e' = some l'.sys ∧
      ∀ u st, e' = .elsewhere u st → e = .elsewhere u st := by
  cases e with
  | call t c =>
    simp only [lockStep] at hs
    split at hs
    · cases hs
      exact .inl rfl
    · cases hs
  | go t =>
    simp only [lockStep, LockSys.go] at hs
    split at hs
    · split at hs
      · cases hs
      · exact .inr ⟨_, onSema_sema hs, nofun⟩
      · exact .inr ⟨_, onSema_sema hs, nofun⟩
      · cases hs
        exact .inl rfl
      · exact .inr ⟨_, onSema_sema hs, nofun⟩
      · cases hs
        exact .inl rfl
      · exact .inr ⟨_, onSema_sema hs, nofun⟩
    · cases hs
  | interrupt t =>
    simp only [lockStep, LockSys.interruptTry] at hs
    split at hs
    · cases hs
      split
      · exact .inr ⟨.tryDown, rfl, nofun⟩
      · exact .inl rfl
    · cases hs
  | setPriority t p =>
    cases hs
    exact .inr ⟨.setPriority t p, rfl, nofun⟩
  | elsewhere t st =>
    obtain ⟨s, hd, rfl⟩ := Option.map_eq_some_iff.mp hs
    refine .inr ⟨_, hd, fun u st he => ?_⟩
    cases he
    rfl

end Sema

/-! ## 5. Every run -/

/-- **Lock mutual exclusion**, in every state of every run. -/
theorem lock_mutual_exclusion (status : Tid → ThreadStatus) (priority : Tid → Int) (l : LockSys)
    (hr : Reach lockStep always (.lockInit status priority) l) :
    (l.sys.sema.value = 0 ∨ l.sys.sema.value = 1) ∧ l.owners.length ≤ 1 ∧
    (∀ t, l.holder = some t → l.owners = [t] ∧ l.sys.sema.value = 0) ∧
    (l.sys.sema.value = 1 ↔ l.owners = [] ∧ ∀ t, ¬ l.Between t) := by
  obtain ⟨k, h⟩ : ∃ k, LockInv l k :=
    hr.invariant (I := fun l => ∃ k, LockInv l k) ⟨.free, .init status priority⟩
      fun _ _ _ ⟨_, h⟩ _ hs => h.step hs
  rw [h.value, h.owners, h.holder]
  cases k with
  | free =>
    refine ⟨.inr rfl, Nat.zero_le _, nofun, fun _ => ⟨rfl, fun t hb => ?_⟩, fun _ => rfl⟩
    rcases h.between_iff.mp hb with e | e <;> cases e
  | taken t =>
    refine ⟨.inl rfl, Nat.zero_le _, nofun, nofun, fun hb => ?_⟩
    exact absurd (h.between_iff.mpr (.inl rfl)) (hb.2 t)
  | held t =>
    refine ⟨.inl rfl, Nat.le_refl _, fun u hu => ?_, nofun, fun hb => ?_⟩
    · cases hu
      exact ⟨rfl, rfl⟩
    · cases hb.1
  | leaving t =>
    refine ⟨.inl rfl, Nat.zero_le _, nofun, nofun, fun hb => ?_⟩
    exact absurd (h.between_iff.mpr (.inr rfl)) (hb.2 t)

/-- Thread 2 waits for the lock of thread 1; thread 3 gets it when 1 releases, before 2 runs. -/
def overtakenRun : List LockEvent :=
  [.call 1 .acquire, .go 1, .go 1, .call 2 .acquire, .go 2, .call 1 .release, .go 1, .go 1,
    .call 3 .tryAcquire, .go 3, .go 3, .go 2]

theorem lock_mutual_exclusion_overtaken : ∃ l,
    runList lockStep (.lockInit (fun _ => .ready) fun _ => 31) overtakenRun = some l ∧
      l.holder = some 3 ∧ l.phase 2 = .downing 2 ∧ l.owners = [3] ∧ l.sys.sema.value = 0 := by
  have hrun : ((runList lockStep (.lockInit (fun _ => .ready) fun _ => 31) overtakenRun).map fun l =>
      (l.holder, l.phase 2)) = some (some 3, .downing 2) := by decide
  obtain ⟨l, hl, he⟩ := Option.map_eq_some_iff.mp hrun
  have hh : l.holder = some 3 := congrArg Prod.fst he
  have hp : l.phase 2 = .downing 2 := congrArg Prod.snd he
  have hmut := lock_mutual_exclusion _ _ l (reach_runList _ (fun _ _ _ => trivial) hl)
  obtain ⟨ho, hv⟩ := hmut.2.2.1 3 hh
  exact ⟨l, hl, hh, hp, ho, hv⟩

end Pintos
