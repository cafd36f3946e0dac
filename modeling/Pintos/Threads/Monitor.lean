/-
  Subject:   Code that runs under one lock and sleeps on semaphores of its own, for any number of
             threads and any interleaving. Machine and invariant; no particular code.

  A client gives the code, one statement at a time: a store to its data, a call on the lock, `sema_down`
  or `sema_up` on a semaphore of its own (the bank, by number), and the interrupt handlers that go with
  it. Between two statements anything may happen. The lock is that of LockMutex.lean, statement by
  statement; the semaphores of the bank run the functions of Semaphore.lean on the same threads, so a
  thread sleeps on at most one of them all.

  `MonInv`: the lock's token, and who sleeps in the bank is blocked and at a `sema_down`; nobody in the
  code is blocked for another reason. Every step keeps it, and `sema_up` never fails its assertion.
-/
import Pintos.Threads.LockMutex

namespace Pintos

open Lib Function List Option

/-! ## 1. The machine -/

/-- A statement of the code: what it stores and where the thread is after it. -/
inductive Stmt (φ δ : Type) where
  | store (data : δ) (next : φ)
  | lock (c : LockCall) (next : φ)
  /-- `sema_down` on semaphore `n`; the data is stored when it comes through. -/
  | down (n : ℕ) (data : δ) (next : φ)
  | up (n : ℕ) (data : δ) (next : φ)

/-- Code under a lock: places `φ`, data `δ`, calls `κ`, interrupts `η`. Statements may read the data and
    the holder of the lock. -/
structure Client (φ δ κ η : Type) where
  /-- Not in the code. -/
  out : φ
  /-- The assertions of a call, and where it begins. -/
  enter : Option Tid → δ → Tid → κ → Option φ
  code : Option Tid → δ → Tid → φ → Option (Stmt φ δ)
  /-- An interrupt handler: what it stores, and the semaphore that it ups. -/
  handler : η → δ → Option (δ × Option ℕ)
  /-- The semaphore on which a thread sleeps that is at this place. -/
  sleeps : φ → Option ℕ
  sleeps_out : sleeps out = none
  sleeps_down : ∀ {h d t p n d' p'}, code h d t p = some (.down n d' p') → sleeps p = some n

structure MonSys (φ δ : Type) where
  lock : LockSys
  bank : ℕ → Semaphore
  data : δ
  place : Tid → φ

inductive MonEvent (κ η : Type) where
  | lock (e : LockEvent)
  /-- `t` calls a function of the client. -/
  | enter (t : Tid) (c : κ)
  /-- `t` executes its next statement of the client's code. -/
  | go (t : Tid)
  | intr (h : η)
  deriving DecidableEq

namespace MonSys

variable {φ δ κ η : Type}

/-- All semaphores of the bank are initialised to 0. -/
def init (C : Client φ δ κ η) (data : δ) (status : Tid → ThreadStatus) (priority : Tid → Int) :
    MonSys φ δ :=
  ⟨.lockInit status priority, fun _ => ⟨0, []⟩, data, fun _ => C.out⟩

def status (s : MonSys φ δ) (t : Tid) : ThreadStatus := s.lock.sys.status t

def setPlace (s : MonSys φ δ) (t : Tid) (p : φ) : MonSys φ δ :=
  { s with place := update s.place t p }

/-- Semaphore `n` of the bank among the threads. -/
def view (s : MonSys φ δ) (n : ℕ) : SemaSys :=
  ⟨s.bank n, s.lock.sys.priority, s.lock.sys.status, [], 0, 0⟩

def putBack (s : MonSys φ δ) (n : ℕ) (x : SemaSys) : MonSys φ δ :=
  { s with
    bank := update s.bank n x.sema
    lock := { s.lock with sys := { s.lock.sys with status := x.status } } }

/-- `sema_up` on semaphore `n`. -/
def up (s : MonSys φ δ) (n : ℕ) : Option (MonSys φ δ) := (s.view n).semaUp.map (s.putBack n)

/-- A statement of `t`. A `sema_down` that does not come through leaves `t` where it is, asleep. -/
def exec (s : MonSys φ δ) (t : Tid) : Stmt φ δ → Option (MonSys φ δ)
  | .store d p => some ({ s with data := d }.setPlace t p)
  | .lock c p =>
    (lockStep s.lock (.call t c)).map fun l => { s with lock := l }.setPlace t p
  | .down n d p =>
    let r := (s.view n).semaTest t
    some (if r.1 then { s.putBack n r.2 with data := d }.setPlace t p else s.putBack n r.2)
  | .up n d p => (s.up n).map fun s' => { s' with data := d }.setPlace t p

/-- The events of the lock that can happen beside the code. A thread in the code makes no other call,
    and its status changes only between ready and running. -/
def lockAllowed (C : Client φ δ κ η) (s : MonSys φ δ) : LockEvent → Prop
  | .call t _ => s.place t = C.out
  | .elsewhere t st => s.place t = C.out ∨ (s.status t ≠ .blocked ∧ st ≠ .blocked)
  | _ => True

instance [DecidableEq φ] (C : Client φ δ κ η) (s : MonSys φ δ) (e : LockEvent) :
    Decidable (lockAllowed C s e) :=
  match e with
  | .call _ _ => inferInstanceAs (Decidable (_ = _))
  | .go _ => inferInstanceAs (Decidable True)
  | .interrupt _ => inferInstanceAs (Decidable True)
  | .setPriority _ _ => inferInstanceAs (Decidable True)
  | .elsewhere _ _ => inferInstanceAs (Decidable (_ ∨ _))

/-- `t` runs and is in no call on the lock. -/
def Free (s : MonSys φ δ) (t : Tid) : Prop := s.lock.phase t = .out ∧ s.status t ≠ .blocked

instance (s : MonSys φ δ) (t : Tid) : Decidable (s.Free t) := inferInstanceAs (Decidable (_ ∧ _))

end MonSys

section Step

variable {φ δ κ η : Type} [DecidableEq φ]

def monStep (C : Client φ δ κ η) (s : MonSys φ δ) : MonEvent κ η → Option (MonSys φ δ)
  | .lock e =>
    if s.lockAllowed C e then (lockStep s.lock e).map fun l => { s with lock := l } else none
  | .enter t c =>
    if s.place t = C.out ∧ s.Free t then
      (C.enter s.lock.holder s.data t c).map fun p => s.setPlace t p
    else none
  | .go t =>
    if s.Free t then (C.code s.lock.holder s.data t (s.place t)).bind fun x => s.exec t x else none
  | .intr h =>
    (C.handler h s.data).bind fun
      | (d, none) => some { s with data := d }
      | (d, some n) => (s.up n).map fun s' => { s' with data := d }

end Step

/-! ## 2. What a step of a semaphore or of the lock leaves alone -/

def SemaEvent.actor : SemaEvent → Option Tid
  | .down t => some t
  | .retest t => some t
  | .elsewhere t _ => some t
  | _ => none

/-- In the loop of `sema_down`: on `waiters`, or woken and not back yet. -/
def SemaSys.Inside (s : SemaSys) (t : Tid) : Prop := t ∈ s.sema.waiters ∨ t ∈ s.woken

variable {u : Tid} {x : SemaSys}

variable {s s' : SemaSys}

theorem SemaSys.semaTest_others {t : Tid} (hu : u ≠ t) :
    ((s.semaTest t).2.Inside u ↔ s.Inside u) ∧ (s.semaTest t).2.status u = s.status u := by
  unfold SemaSys.semaTest
  split
  · refine ⟨?_, update_of_ne hu ..⟩
    simp [SemaSys.Inside, SemaSys.block, hu]
  · exact ⟨Iff.rfl, rfl⟩

/-- A thread that is not the actor is in the loop only if it was, and keeps its status unless
    `sema_up` wakes it. -/
theorem semaStep_others {e : SemaEvent} (hs : semaStep s e = some s') (hu : e.actor ≠ some u) :
    (s'.Inside u → s.Inside u) ∧ (u ∉ s.sema.waiters → s'.status u = s.status u) := by
  cases e with
  | down t =>
    simp only [semaStep] at hs
    split at hs
    · cases hs
      have h := SemaSys.semaTest_others (s := s) (t := t) (u := u) fun e => hu (congrArg some e.symm)
      exact ⟨h.1.mp, fun _ => h.2⟩
    · cases hs
  | retest t =>
    simp only [semaStep] at hs
    split at hs
    · cases hs
      have h := SemaSys.semaTest_others (s := { s with woken := s.woken.erase t }) (t := t) (u := u)
        fun e => hu (congrArg some e.symm)
      refine ⟨fun hi => ?_, fun _ => h.2⟩
      rcases h.1.mp hi with hw | hw
      · exact .inl hw
      · exact .inr (mem_of_mem_erase hw)
    · cases hs
  | tryDown =>
    cases hs
    unfold SemaSys.semaTryDown
    split
    · exact ⟨id, fun _ => rfl⟩
    · exact ⟨id, fun _ => rfl⟩
  | up =>
    obtain ⟨x, hx, rfl⟩ := map_eq_some_iff.mp hs
    unfold SemaSys.semaUp at hx
    split at hx
    · cases hx
      exact ⟨id, fun _ => rfl⟩
    · rename_i w hw
      obtain ⟨s₁, hwake, rfl⟩ := map_eq_some_iff.mp hx
      unfold SemaSys.wake at hwake
      split at hwake
      · cases hwake
        refine ⟨fun hi => ?_, fun hn => ?_⟩
        · rcases hi with hi | hi
          · exact .inl (mem_of_mem_erase hi)
          · rcases mem_cons.mp hi with rfl | hi
            · exact .inl (maxElem_mem hw)
            · exact .inr hi
        · have hne : u ≠ w := fun e => hn (e ▸ maxElem_mem hw)
          exact update_of_ne hne ..
      · cases hwake
  | setPriority t p =>
    cases hs
    exact ⟨id, fun _ => rfl⟩
  | elsewhere t st =>
    simp only [semaStep] at hs
    split at hs
    · cases hs
      exact ⟨id, fun _ => update_of_ne (fun e => hu (congrArg some e.symm)) ..⟩
    · cases hs

/-- Who is blocked after the section waits here, or was blocked before it somewhere else. -/
def SemaSys.BlocksHere (s s' : SemaSys) (t : Tid) : Prop :=
  s'.status t = .blocked → t ∈ s'.sema.waiters ∨ (s.status t = .blocked ∧ t ∉ s.sema.waiters)

namespace SemaSys.BlocksHere

variable {t : Tid}

theorem of_eq (hs : s'.status t = s.status t) (hw : t ∈ s.sema.waiters → t ∈ s'.sema.waiters) :
    s.BlocksHere s' t := by
  intro hb
  by_cases hm : t ∈ s.sema.waiters
  · exact .inl (hw hm)
  · exact .inr ⟨hs.symm.trans hb, hm⟩

theorem block : s.BlocksHere (s.block u) t := by
  by_cases e : t = u
  · exact fun _ => .inl (mem_append_right _ (mem_singleton.mpr e))
  · exact of_eq (update_of_ne e ..) fun hm => mem_append_left _ hm

theorem semaTest : s.BlocksHere (s.semaTest u).2 t := by
  unfold SemaSys.semaTest
  split
  · exact block
  · exact of_eq rfl id

theorem semaUp (h : s.semaUp = some s') : s.BlocksHere s' t := by
  unfold SemaSys.semaUp at h
  split at h
  · cases h
    exact of_eq rfl id
  · rename_i w hw
    obtain ⟨s₁, hwake, rfl⟩ := map_eq_some_iff.mp h
    unfold SemaSys.wake at hwake
    split at hwake
    · cases hwake
      by_cases e : t = w
      · intro hb
        rw [e] at hb
        exact absurd ((update_self ..).symm.trans hb) nofun
      · exact of_eq (update_of_ne e ..) fun hm => (mem_erase_of_ne e).mpr hm
    · cases hwake

end SemaSys.BlocksHere

theorem semaStep_blocks {e : SemaEvent} {t : Tid} (hs : semaStep s e = some s')
    (he : e ≠ .elsewhere t .blocked) : s.BlocksHere s' t := by
  cases e with
  | down u =>
    simp only [semaStep] at hs
    split at hs
    · cases hs
      exact SemaSys.BlocksHere.semaTest
    · cases hs
  | retest u =>
    simp only [semaStep] at hs
    split at hs
    · cases hs
      exact SemaSys.BlocksHere.semaTest (s := { s with woken := s.woken.erase u })
    · cases hs
  | tryDown =>
    cases hs
    unfold SemaSys.semaTryDown
    split
    · exact .of_eq rfl id
    · exact .of_eq rfl id
  | up =>
    obtain ⟨x, hx, rfl⟩ := map_eq_some_iff.mp hs
    have h : s.BlocksHere x t := .semaUp hx
    exact h
  | setPriority u p =>
    cases hs
    exact .of_eq rfl id
  | elsewhere u st =>
    simp only [semaStep] at hs
    split at hs
    · cases hs
      by_cases e : t = u
      · intro hb
        subst e
        exact absurd (congrArg (SemaEvent.elsewhere t) ((update_self ..).symm.trans hb)) he
      · exact .of_eq (update_of_ne e ..) id
    · cases hs

/-- `t` takes part in the event: its call, its statement, or a status given to it. -/
def LockEvent.concerns (t : Tid) : LockEvent → Prop
  | .call u _ => u = t
  | .go u => u = t
  | .elsewhere u _ => u = t
  | _ => False

section Lock

variable {l l' : LockSys} {e : LockEvent} {t : Tid} {k : Token}

theorem lockGo_others (hs : l.go u = some l') (hu : t ≠ u) :
    l'.phase t = l.phase t ∧ (l'.sys.Inside t → l.sys.Inside t) ∧
      (t ∉ l.sys.sema.waiters → l'.sys.status t = l.sys.status t) := by
  have hsema : ∀ (x : SemaEvent) {p : LockPhase}, x.actor ≠ some t → l.onSema u x p = some l' →
      l'.phase t = l.phase t ∧ (l'.sys.Inside t → l.sys.Inside t) ∧
        (t ∉ l.sys.sema.waiters → l'.sys.status t = l.sys.status t) := by
    intro x p hx ho
    obtain ⟨s, hd, rfl⟩ := map_eq_some_iff.mp ho
    exact ⟨update_of_ne hu .., semaStep_others hd hx⟩
  have hact : some u ≠ some t := fun e => hu (Option.some.inj e).symm
  unfold LockSys.go at hs
  split at hs
  · cases hs
  · exact hsema (.down u) hact hs
  · exact hsema (.retest u) hact hs
  · cases hs
    exact ⟨update_of_ne hu .., id, fun _ => rfl⟩
  · exact hsema .tryDown nofun hs
  · cases hs
    exact ⟨update_of_ne hu .., id, fun _ => rfl⟩
  · exact hsema .up nofun hs

/-- **A step of the lock leaves alone** a thread that takes no part in it: its phase, that it is not
    in the loop of `sema_down`, and its status unless it waits for the lock. -/
theorem lockStep_others (hs : lockStep l e = some l') (he : ¬ e.concerns t) :
    l'.phase t = l.phase t ∧ (l'.sys.Inside t → l.sys.Inside t) ∧
      (t ∉ l.sys.sema.waiters → l'.sys.status t = l.sys.status t) := by
  cases e with
  | call u c =>
    simp only [lockStep] at hs
    split at hs
    · cases hs
      exact ⟨update_of_ne (fun e => he e.symm) .., id, fun _ => rfl⟩
    · cases hs
  | go u =>
    simp only [lockStep] at hs
    split at hs
    · exact lockGo_others hs fun e => he e.symm
    · cases hs
  | interrupt u =>
    simp only [lockStep, LockSys.interruptTry] at hs
    split at hs
    · cases hs
      split
      · exact ⟨rfl, semaStep_others (e := .tryDown) rfl (by rintro ⟨⟩)⟩
      · exact ⟨rfl, id, fun _ => rfl⟩
    · cases hs
  | setPriority u p =>
    cases hs
    exact ⟨rfl, id, fun _ => rfl⟩
  | elsewhere u st =>
    obtain ⟨s, hd, rfl⟩ := map_eq_some_iff.mp hs
    exact ⟨rfl, semaStep_others hd fun e => he (Option.some.inj e)⟩

/-- **The holder keeps the lock** until it releases it. -/
theorem lockStep_holder (h : LockInv l k) (hs : lockStep l e = some l') (hh : l.holder = some t)
    (hr : l.phase t ≠ .release) : l'.holder = some t := by
  have hk : k = .held t := Token.eq_held (h.holder.symm.trans hh)
  subst hk
  cases e with
  | call u c =>
    simp only [lockStep] at hs
    split at hs
    · cases hs
      exact hh
    · cases hs
  | go u =>
    simp only [lockStep, LockSys.go] at hs
    have hu := h.phase u
    split at hs
    · split at hs
      · cases hs
      · obtain ⟨s, -, rfl⟩ := map_eq_some_iff.mp hs
        exact hh
      · obtain ⟨s, -, rfl⟩ := map_eq_some_iff.mp hs
        exact hh
      · rename_i hp
        rw [hp] at hu
        cases hu
      · obtain ⟨s, -, rfl⟩ := map_eq_some_iff.mp hs
        exact hh
      · rename_i hp
        rw [hp] at hu
        cases hu
        exact absurd hp hr
      · rename_i hp
        rw [hp] at hu
        cases hu
    · cases hs
  | interrupt u =>
    have hv : ¬ 0 < l.sys.sema.value := by
      rw [h.value]
      exact Nat.lt_irrefl 0
    simp only [lockStep, LockSys.interruptTry, if_neg hv] at hs
    split at hs
    · cases hs
      exact hh
    · cases hs
  | setPriority u p =>
    cases hs
    exact hh
  | elsewhere u st =>
    obtain ⟨s, -, rfl⟩ := map_eq_some_iff.mp hs
    exact hh

/-- A step that is no call of `t` is a statement of `t`, or leaves it where it is. -/
theorem lockStep_cases (hs : lockStep l e = some l') (he : ∀ c, e ≠ .call t c) :
    l.go t = some l' ∨ l'.phase t = l.phase t := by
  by_cases hc : e.concerns t
  · cases e with
    | call u c =>
      cases hc
      exact absurd rfl (he c)
    | go u =>
      cases hc
      simp only [lockStep] at hs
      split at hs
      · exact .inl hs
      · cases hs
    | elsewhere u st =>
      obtain ⟨s, -, rfl⟩ := map_eq_some_iff.mp hs
      exact .inr rfl
    | interrupt | setPriority => cases hc
  · exact .inr (lockStep_others hs hc).1

/-- A thread that is in no call on the lock stays out until it makes one. -/
theorem lockStep_out (hs : lockStep l e = some l') (he : ∀ c, e ≠ .call t c)
    (hp : l.phase t = .out) : l'.phase t = .out := by
  rcases lockStep_cases hs he with hgo | hsame
  · simp only [LockSys.go, hp] at hgo
    cases hgo
  · exact hsame.trans hp

/-- `t` is in `lock_release`, or has come out of it. -/
def LockSys.Leaving (l : LockSys) (t : Tid) : Prop :=
  l.phase t = .release ∨ l.phase t = .cleared ∨ l.phase t = .out

/-- **`lock_release` goes on** whatever the others do. -/
theorem lockStep_leaving (hs : lockStep l e = some l') (he : ∀ c, e ≠ .call t c)
    (h : l.Leaving t) : l'.Leaving t := by
  rcases lockStep_cases hs he with hgo | hsame
  · unfold LockSys.go at hgo
    rcases h with h | h | h
    · rw [h] at hgo
      cases hgo
      exact .inr (.inl (update_self ..))
    · rw [h] at hgo
      obtain ⟨s, -, rfl⟩ := map_eq_some_iff.mp hgo
      exact .inr (.inr (update_self ..))
    · rw [h] at hgo
      cases hgo
  · unfold LockSys.Leaving
    rw [hsame]
    exact h

/-- `t` is in `lock_acquire`, or has come out of it and holds the lock. -/
def LockSys.Acquiring (l : LockSys) (t : Tid) : Prop :=
  l.phase t = .acquire t ∨ l.phase t = .downing t ∨ l.phase t = .gotDown t ∨
    (l.phase t = .out ∧ l.holder = some t)

theorem LockSys.Acquiring.holder (h : l.Acquiring t) (hp : l.phase t = .out) : l.holder = some t := by
  rcases h with h | h | h | h
  · exact absurd (hp.symm.trans h) nofun
  · exact absurd (hp.symm.trans h) nofun
  · exact absurd (hp.symm.trans h) nofun
  · exact h.2

theorem lockGo_acquiring (h : l.Acquiring t) (hs : l.go t = some l') : l'.Acquiring t := by
  have htest : ∀ {x : SemaEvent}, l.onSema t x (l.afterTest t) = some l' → l'.Acquiring t := by
    intro x hx
    obtain ⟨s, -, rfl⟩ := map_eq_some_iff.mp hx
    unfold LockSys.afterTest
    split
    · exact .inr (.inl (update_self ..))
    · exact .inr (.inr (.inl (update_self ..)))
  unfold LockSys.go at hs
  rcases h with h | h | h | h
  · rw [h] at hs
    exact htest hs
  · rw [h] at hs
    exact htest hs
  · rw [h] at hs
    cases hs
    exact .inr (.inr (.inr ⟨update_self .., rfl⟩))
  · rw [h.1] at hs
    cases hs

/-- **`lock_acquire` goes on** whatever the others do, and the lock is held at its end. -/
theorem lockStep_acquiring (hk : LockInv l k) (h : l.Acquiring t) (hs : lockStep l e = some l')
    (he : ∀ c, e ≠ .call t c) : l'.Acquiring t := by
  rcases lockStep_cases hs he with hgo | hsame
  · exact lockGo_acquiring h hgo
  · unfold LockSys.Acquiring at h ⊢
    rw [hsame]
    rcases h with hq | hq | hq | hq
    · exact .inl hq
    · exact .inr (.inl hq)
    · exact .inr (.inr (.inl hq))
    · refine .inr (.inr (.inr ⟨hq.1, lockStep_holder hk hs hq.2 ?_⟩))
      rw [hq.1]
      nofun

/-- Who is in the loop of `sema_down` of the lock is there by an acquire. -/
def LockWaits (l : LockSys) : Prop := ∀ t, l.sys.Inside t → ∃ u, l.phase t = .downing u

theorem SemaSys.semaTest_through (ho : s.Outside t) (hv : s.sema.value ≠ 0) :
    ¬ (s.semaTest t).2.Inside t := by
  unfold SemaSys.semaTest
  rw [if_neg hv]
  rintro (h | h)
  · exact ho.1 h
  · exact ho.2 h

/-- A statement of `t` that tests the value: if `t` is in the loop after it, its phase says so. -/
theorem afterTest_waits (ho : s.Outside t) (hv : s.sema.value = l.sys.sema.value)
    (hi : (s.semaTest t).2.Inside t) : l.afterTest u = .downing u := by
  by_cases hz : l.sys.sema.value = 0
  · exact if_pos hz
  · exact absurd hi (SemaSys.semaTest_through ho (hv ▸ hz))

theorem lockGo_waits (hS : SemaInv 0 l.sys) (hw : LockWaits l) (hs : l.go t = some l')
    (hi : l'.sys.Inside t) : ∃ u, l'.phase t = .downing u := by
  -- `t` was in the loop only if it is there by an acquire
  have hout : ∀ {p : LockPhase}, l.phase t = p → (∀ u, p ≠ .downing u) → ¬ l.sys.Inside t :=
    fun hp hne hin => (hw t hin).elim fun u hu => hne u (hp.symm.trans hu)
  unfold LockSys.go at hs
  cases hp : l.phase t with
  | out =>
    rw [hp] at hs
    cases hs
  | acquire u =>
    rw [hp] at hs
    obtain ⟨s, hd, rfl⟩ := map_eq_some_iff.mp hs
    simp only [semaStep] at hd
    split at hd
    · rename_i hg
      cases hd
      exact ⟨u, (update_self ..).trans (afterTest_waits hg.1 rfl hi)⟩
    · cases hd
  | downing u =>
    rw [hp] at hs
    obtain ⟨s, hd, rfl⟩ := map_eq_some_iff.mp hs
    simp only [semaStep] at hd
    split at hd
    · rename_i hg
      cases hd
      have hv : ({ l.sys with woken := l.sys.woken.erase t } : SemaSys).sema.value =
        l.sys.sema.value := rfl
      exact ⟨u, (update_self ..).trans (afterTest_waits (hS.retest hg).2 hv hi)⟩
    · cases hd
  | gotDown u | release =>
    rw [hp] at hs
    cases hs
    exact absurd hi (hout hp (by simp))
  | tryAcquire | cleared =>
    rw [hp] at hs
    obtain ⟨s, hd, rfl⟩ := map_eq_some_iff.mp hs
    exact absurd ((semaStep_others hd (by rintro ⟨⟩)).1 hi) (hout hp (by simp))

theorem lockStep_waits (hS : SemaInv 0 l.sys) (hw : LockWaits l) (hs : lockStep l e = some l') :
    LockWaits l' := by
  intro t hi
  by_cases he : e.concerns t
  · cases e with
    | call u c =>
      cases he
      simp only [lockStep] at hs
      split at hs
      · rename_i hg
        cases hs
        obtain ⟨v, hv⟩ := hw t hi
        rw [hg.1] at hv
        cases hv
      · cases hs
    | go u =>
      cases he
      simp only [lockStep] at hs
      split at hs
      · exact lockGo_waits hS hw hs hi
      · cases hs
    | elsewhere u st =>
      obtain ⟨s, hd, rfl⟩ := map_eq_some_iff.mp hs
      simp only [semaStep] at hd
      split at hd
      · cases hd
        exact hw t hi
      · cases hd
    | interrupt | setPriority => cases he
  · obtain ⟨hp, hin, -⟩ := lockStep_others hs he
    rw [hp]
    exact hw t (hin hi)

theorem lockStep_semaInv (hS : SemaInv 0 l.sys) (hs : lockStep l e = some l') : SemaInv 0 l'.sys := by
  rcases lockStep_sema hs with he | ⟨x, hx, -⟩
  · rwa [he]
  · exact hS.step hx

theorem lockStep_blocks (hs : lockStep l e = some l') (he : e ≠ .elsewhere t .blocked) :
    l.sys.BlocksHere l'.sys t := by
  rcases lockStep_sema hs with heq | ⟨x, hx, hels⟩
  · rw [heq]
    exact .of_eq rfl id
  · exact semaStep_blocks hx fun h => he (hels _ _ h)

end Lock

/-! ## 3. The invariant -/

section Inv

variable {φ δ κ η : Type} {C : Client φ δ κ η} {s s' : MonSys φ δ} {t : Tid} {n : ℕ}

/-- What holds of the lock and of the sleepers, whatever the code. -/
structure MonInv (C : Client φ δ κ η) (s : MonSys φ δ) : Prop where
  token : ∃ k, LockInv s.lock k
  sema : SemaInv 0 s.lock.sys
  waits : LockWaits s.lock
  nodup : ∀ n, (s.bank n).waiters.Nodup
  /-- Who sleeps in the bank is blocked, in no call on the lock, and at a `sema_down` there. -/
  asleep : ∀ n, ∀ t ∈ (s.bank n).waiters,
    s.status t = .blocked ∧ s.lock.phase t = .out ∧ C.sleeps (s.place t) = some n
  /-- Who is blocked in the code waits for the lock or sleeps in the bank. -/
  awake : ∀ t, s.place t ≠ C.out → s.status t = .blocked →
    t ∈ s.lock.sys.sema.waiters ∨ ∃ n, t ∈ (s.bank n).waiters

namespace MonInv

theorem init (C : Client φ δ κ η) (data : δ) (status : Tid → ThreadStatus) (priority : Tid → Int) :
    MonInv C (.init C data status priority) where
  token := ⟨.free, .init status priority⟩
  sema := .init 1 status priority
  waits _ h := by rcases h with h | h <;> exact absurd h not_mem_nil
  nodup _ := nodup_nil
  asleep _ _ h := absurd h not_mem_nil
  awake _ h := absurd rfl h

section

variable (h : MonInv C s)

include h

theorem setData (d : δ) : MonInv C { s with data := d } :=
  ⟨h.token, h.sema, h.waits, h.nodup, h.asleep, h.awake⟩

theorem setPlace (ht : s.status t ≠ .blocked) (p : φ) : MonInv C (s.setPlace t p) where
  token := h.token
  sema := h.sema
  waits := h.waits
  nodup := h.nodup
  asleep n u hu := by
    obtain ⟨hb, hp, hc⟩ := h.asleep n u hu
    have hne : u ≠ t := fun e => ht (e ▸ hb)
    refine ⟨hb, hp, ?_⟩
    show C.sleeps (update s.place t p u) = some n
    rwa [update_of_ne hne]
  awake u hu hb := by
    have hne : u ≠ t := fun e => ht (e ▸ hb)
    have hp : update s.place t p u ≠ C.out := hu
    rw [update_of_ne hne] at hp
    exact h.awake u hp hb

theorem not_inside (hp : s.lock.phase t = .out) : ¬ s.lock.sys.Inside t := fun hi =>
  (h.waits t hi).elim fun _ hu => by
    rw [hp] at hu
    cases hu

/-- A step of the lock in which no sleeper takes part, and that blocks nobody in the code. -/
theorem setLock {l : LockSys} {e : LockEvent} (hs : lockStep s.lock e = some l)
    (he : ∀ n, ∀ t ∈ (s.bank n).waiters, ¬ e.concerns t)
    (hb : ∀ t, s.place t ≠ C.out → e ≠ .elsewhere t .blocked) : MonInv C { s with lock := l } where
  token := h.token.elim fun _ hk => hk.step hs
  sema := lockStep_semaInv h.sema hs
  waits := lockStep_waits h.sema h.waits hs
  nodup := h.nodup
  asleep n t ht := by
    obtain ⟨hb, hp, hc⟩ := h.asleep n t ht
    obtain ⟨hphase, -, hstatus⟩ := lockStep_others hs (he n t ht)
    exact ⟨(hstatus fun hw => h.not_inside hp (.inl hw)).trans hb, hphase.trans hp, hc⟩
  awake t ht hbl := by
    rcases lockStep_blocks hs (hb t ht) hbl with hw | ⟨hold, hw⟩
    · exact .inl hw
    · exact .inr ((h.awake t ht hold).resolve_left hw)

/-- Other statuses and one other semaphore. Threads in the loop of the lock keep their status. -/
theorem putBack (hx : ∀ t, s.lock.sys.Inside t → x.status t = s.status t)
    (hnd : x.sema.waiters.Nodup)
    (hn : ∀ t ∈ x.sema.waiters, x.status t = .blocked ∧ s.lock.phase t = .out ∧
      C.sleeps (s.place t) = some n)
    (ho : ∀ t, s.status t = .blocked → (∃ m, m ≠ n ∧ C.sleeps (s.place t) = some m) →
      x.status t = .blocked)
    (hb : ∀ t, (s.view n).BlocksHere x t) : MonInv C (s.putBack n x) where
  token := h.token.elim fun k hk => ⟨k, hk.setSys rfl⟩
  sema := by
    refine ⟨h.sema.nodup, h.sema.wokenNodup, fun u hu => ?_, fun u hu => ?_, h.sema.noneLost⟩
    · exact (hx u (.inl hu)).trans (h.sema.blocked u hu)
    · exact fun hb => h.sema.awake u hu ((hx u (.inr hu)).symm.trans hb)
  waits := h.waits
  nodup m := by
    by_cases e : m = n
    · subst e
      simpa only [MonSys.putBack, update_self] using hnd
    · simpa only [MonSys.putBack, update_of_ne e] using h.nodup m
  asleep m u hu := by
    by_cases e : m = n
    · subst e
      simp only [MonSys.putBack, update_self] at hu
      exact hn u hu
    · simp only [MonSys.putBack, update_of_ne e] at hu
      obtain ⟨hb, hp, hc⟩ := h.asleep m u hu
      exact ⟨ho u hb ⟨m, e, hc⟩, hp, hc⟩
  awake u hu hbl := by
    rcases hb u hbl with hw | ⟨hold, hw⟩
    · refine .inr ⟨n, ?_⟩
      simpa only [MonSys.putBack, update_self] using hw
    · refine (h.awake u hu hold).imp id fun ⟨m, hm⟩ => ⟨m, ?_⟩
      have e : m ≠ n := fun e => hw (e ▸ hm)
      simpa only [MonSys.putBack, update_of_ne e] using hm

theorem sleep (hf : s.Free t) (hc : C.sleeps (s.place t) = some n) :
    MonInv C (s.putBack n ((s.view n).block t)) := by
  have hnew : t ∉ (s.bank n).waiters := fun hm => hf.2 (h.asleep n t hm).1
  refine h.putBack (fun u hu => ?_) ?_ (fun u hu => ?_) (fun u hb _ => ?_) fun _ => .block
  · have hne : u ≠ t := fun e => h.not_inside hf.1 (e ▸ hu)
    exact update_of_ne hne ..
  · refine nodup_append.mpr ⟨h.nodup n, nodup_singleton t, fun u hu w hw => ?_⟩
    rw [mem_singleton.mp hw]
    exact fun e => hnew (e ▸ hu)
  · by_cases e : u = t
    · subst e
      exact ⟨update_self .., hf.1, hc⟩
    · have hu' : u ∈ (s.bank n).waiters :=
        (mem_append.mp hu).resolve_right fun hm => e (mem_singleton.mp hm)
      obtain ⟨hb, hp, hc'⟩ := h.asleep n u hu'
      exact ⟨(update_of_ne e ..).trans hb, hp, hc'⟩
  · by_cases e : u = t
    · subst e
      exact update_self ..
    · exact (update_of_ne e ..).trans hb

theorem through (n : ℕ) : MonInv C (s.putBack n (s.view n).take) :=
  h.putBack (fun _ _ => rfl) (h.nodup n) (h.asleep n) (fun _ hb _ => hb) fun _ => .of_eq rfl id

end

end MonInv

/-- What `sema_up` on semaphore `n` does. -/
structure Upped (s s' : MonSys φ δ) (n : ℕ) : Prop where
  data : s'.data = s.data
  place : s'.place = s.place
  phase : s'.lock.phase = s.lock.phase
  holder : s'.lock.holder = s.lock.holder
  value : (s'.bank n).value = ((s.bank n).value + 1) % 2 ^ 32
  waiters : (s'.bank n).waiters.length = (s.bank n).waiters.length - 1
  others : ∀ m, m ≠ n → s'.bank m = s.bank m
  awake : ∀ t, s.status t ≠ .blocked → s'.status t ≠ .blocked

theorem Upped.of_putBack (hv : x.sema.value = ((s.bank n).value + 1) % 2 ^ 32)
    (hw : x.sema.waiters.length = (s.bank n).waiters.length - 1)
    (ha : ∀ t, s.status t ≠ .blocked → x.status t ≠ .blocked) : Upped s (s.putBack n x) n where
  data := rfl
  place := rfl
  phase := rfl
  holder := rfl
  value := by simpa only [MonSys.putBack, update_self] using hv
  waiters := by simpa only [MonSys.putBack, update_self] using hw
  others m hm := update_of_ne hm ..
  awake := ha

/-- **`sema_up` goes through** and wakes one sleeper, if there is any. -/
theorem MonInv.up (h : MonInv C s) (n : ℕ) : ∃ s', s.up n = some s' ∧ MonInv C s' ∧ Upped s s' n := by
  cases hm : maxElem s.lock.sys.priority (s.bank n).waiters with
  | none =>
    have hnil := maxElem_eq_none hm
    have hup : (s.view n).semaUp = some (s.view n).give := by
      simp only [SemaSys.semaUp, MonSys.view, hm]
    refine ⟨s.putBack n (s.view n).give, by rw [MonSys.up, hup, map_some], ?_, ?_⟩
    · exact h.putBack (fun _ _ => rfl) (h.nodup n) (h.asleep n) (fun _ hb _ => hb) fun _ =>
        .semaUp hup
    · refine .of_putBack rfl ?_ fun _ ht => ht
      show (s.bank n).waiters.length = _
      rw [hnil]
      rfl
  | some w =>
    have hw := maxElem_mem hm
    obtain ⟨hb, hp, hc⟩ := h.asleep n w hw
    let x : SemaSys := ⟨⟨(s.bank n).value, (s.bank n).waiters.erase w⟩, s.lock.sys.priority,
      update s.lock.sys.status w .ready, [w], 0, 0⟩
    have hwake : (s.view n).wake w = some x := if_pos hb
    have hup : (s.view n).semaUp = some x.give := by
      simp only [SemaSys.semaUp]
      rw [show maxElem (s.view n).priority (s.view n).sema.waiters = some w from hm]
      simp only [hwake, map_some]
    refine ⟨s.putBack n x.give, by rw [MonSys.up, hup, map_some], ?_, ?_⟩
    · refine h.putBack (fun u hu => ?_) ((h.nodup n).erase w) (fun u hu => ?_)
        (fun u hub hum => ?_) fun _ => .semaUp hup
      · have hne : u ≠ w := fun e => h.not_inside hp (e ▸ hu)
        exact update_of_ne hne ..
      · obtain ⟨hne, hu'⟩ := (List.Nodup.mem_erase_iff (h.nodup n)).mp hu
        obtain ⟨hb', hp', hc'⟩ := h.asleep n u hu'
        exact ⟨(update_of_ne hne ..).trans hb', hp', hc'⟩
      · obtain ⟨m, hmn, hum⟩ := hum
        have hne : u ≠ w := by
          rintro rfl
          exact hmn (Option.some.inj (hum.symm.trans hc))
        exact (update_of_ne hne ..).trans hub
    · refine .of_putBack rfl (length_erase_of_mem hw) fun u hu => ?_
      show update s.lock.sys.status w .ready u ≠ .blocked
      by_cases e : u = w
      · subst e
        rw [update_self]
        simp
      · rw [update_of_ne e]
        exact hu

/-! ## 4. Steps -/

/-- **What a step of the machine does**, and when. -/
inductive MonMove (C : Client φ δ κ η) (s : MonSys φ δ) : MonEvent κ η → MonSys φ δ → Prop where
  | lock {e : LockEvent} {l : LockSys} (allowed : s.lockAllowed C e)
      (hs : lockStep s.lock e = some l) : MonMove C s (.lock e) { s with lock := l }
  | enter {t : Tid} {c : κ} {p : φ} (out : s.place t = C.out) (free : s.Free t)
      (hc : C.enter s.lock.holder s.data t c = some p) : MonMove C s (.enter t c) (s.setPlace t p)
  | store {t : Tid} {d : δ} {p : φ} (free : s.Free t)
      (hc : C.code s.lock.holder s.data t (s.place t) = some (.store d p)) :
      MonMove C s (.go t) ({ s with data := d }.setPlace t p)
  | call {t : Tid} {c : LockCall} {p : φ} {l : LockSys} (free : s.Free t)
      (hc : C.code s.lock.holder s.data t (s.place t) = some (.lock c p))
      (hs : lockStep s.lock (.call t c) = some l) :
      MonMove C s (.go t) ({ s with lock := l }.setPlace t p)
  | sleep {t : Tid} {n : ℕ} {d : δ} {p : φ} (free : s.Free t)
      (hc : C.code s.lock.holder s.data t (s.place t) = some (.down n d p))
      (hv : (s.bank n).value = 0) : MonMove C s (.go t) (s.putBack n ((s.view n).block t))
  | through {t : Tid} {n : ℕ} {d : δ} {p : φ} (free : s.Free t)
      (hc : C.code s.lock.holder s.data t (s.place t) = some (.down n d p))
      (hv : (s.bank n).value ≠ 0) :
      MonMove C s (.go t) ({ s.putBack n (s.view n).take with data := d }.setPlace t p)
  | up {t : Tid} {n : ℕ} {d : δ} {p : φ} {s₁ : MonSys φ δ} (free : s.Free t)
      (hc : C.code s.lock.holder s.data t (s.place t) = some (.up n d p)) (hu : s.up n = some s₁) :
      MonMove C s (.go t) ({ s₁ with data := d }.setPlace t p)
  | intr {h : η} {d : δ} (hc : C.handler h s.data = some (d, none)) :
      MonMove C s (.intr h) { s with data := d }
  | intrUp {h : η} {d : δ} {n : ℕ} {s₁ : MonSys φ δ} (hc : C.handler h s.data = some (d, some n))
      (hu : s.up n = some s₁) : MonMove C s (.intr h) { s₁ with data := d }

theorem monStep_go [DecidableEq φ] {x : Stmt φ δ} (hf : s.Free t)
    (hc : C.code s.lock.holder s.data t (s.place t) = some x) : monStep C s (.go t) = s.exec t x := by
  simp only [monStep, if_pos hf, hc, bind_some]

theorem monExec_move {x : Stmt φ δ} (hf : s.Free t)
    (hc : C.code s.lock.holder s.data t (s.place t) = some x) (hs : s.exec t x = some s') :
    MonMove C s (.go t) s' := by
  cases x with
  | store d p =>
    cases hs
    exact .store hf hc
  | lock c p =>
    obtain ⟨l, hl, rfl⟩ := map_eq_some_iff.mp hs
    exact .call hf hc hl
  | down n d p =>
    by_cases hv : (s.bank n).value = 0
    · have ht : (s.view n).semaTest t = (false, (s.view n).block t) := if_pos hv
      simp only [MonSys.exec, ht] at hs
      cases hs
      exact .sleep hf hc hv
    · have ht : (s.view n).semaTest t = (true, (s.view n).take) := if_neg hv
      simp only [MonSys.exec, ht] at hs
      cases hs
      exact .through hf hc hv
  | up n d p =>
    obtain ⟨s₁, hu, rfl⟩ := map_eq_some_iff.mp hs
    exact .up hf hc hu

variable {e : MonEvent κ η}

theorem monStep_move [DecidableEq φ] (hs : monStep C s e = some s') : MonMove C s e s' := by
  cases e with
  | lock e =>
    simp only [monStep] at hs
    split at hs
    · rename_i ha
      obtain ⟨l, hl, rfl⟩ := map_eq_some_iff.mp hs
      exact .lock ha hl
    · cases hs
  | enter t c =>
    simp only [monStep] at hs
    split at hs
    · rename_i hg
      obtain ⟨p, hp, rfl⟩ := map_eq_some_iff.mp hs
      exact .enter hg.1 hg.2 hp
    · cases hs
  | go t =>
    simp only [monStep] at hs
    split at hs
    · rename_i hf
      obtain ⟨x, hx, he⟩ := bind_eq_some_iff.mp hs
      exact monExec_move hf hx he
    · cases hs
  | intr i =>
    obtain ⟨⟨d, n⟩, hd, hn⟩ := bind_eq_some_iff.mp hs
    cases n with
    | none =>
      cases hn
      exact .intr hd
    | some n =>
      obtain ⟨s₁, hu, rfl⟩ := map_eq_some_iff.mp hn
      exact .intrUp hd hu

theorem MonInv.step (h : MonInv C s) (hm : MonMove C s e s') : MonInv C s' := by
  cases hm with
  | @lock e l ha hs =>
    refine h.setLock hs (fun n t ht hc => ?_) fun t hp he => ?_
    rotate_left
    · rw [he] at ha
      rcases ha with ha | ha
      · exact hp ha
      · exact ha.2 rfl
    obtain ⟨hb, -, hp⟩ := h.asleep n t ht
    have hin : s.place t ≠ C.out := fun e => by
      rw [e, C.sleeps_out] at hp
      cases hp
    cases e with
    | call u c =>
      cases hc
      exact hin ha
    | go u =>
      cases hc
      simp only [lockStep] at hs
      split at hs
      · rename_i hne
        exact hne hb
      · cases hs
    | elsewhere u st =>
      cases hc
      rcases ha with ha | ha
      · exact hin ha
      · exact ha.1 hb
    | interrupt | setPriority => cases hc
  | enter _ hf _ => exact h.setPlace hf.2 _
  | @store t d p hf _ => exact (h.setData d).setPlace hf.2 p
  | @call t c p l hf _ hs =>
    have hfree : ∀ n, ∀ u ∈ (s.bank n).waiters, ¬ (LockEvent.call t c).concerns u := by
      rintro n u hu rfl
      exact hf.2 (h.asleep n _ hu).1
    have hl : l.sys = s.lock.sys := by
      simp only [lockStep] at hs
      split at hs
      · cases hs
        rfl
      · cases hs
    refine (h.setLock hs hfree fun _ _ he => by cases he).setPlace ?_ _
    show l.sys.status t ≠ .blocked
    rw [hl]
    exact hf.2
  | sleep hf hc _ => exact h.sleep hf (C.sleeps_down hc)
  | @through t n d p hf _ _ => exact ((h.through n).setData d).setPlace hf.2 p
  | @up t n d p s₁ hf _ hu =>
    obtain ⟨s₂, hu2, h2, hup⟩ := h.up n
    cases hu.symm.trans hu2
    exact (h2.setData d).setPlace (hup.awake t hf.2) p
  | intr _ => exact h.setData _
  | @intrUp i d n s₁ _ hu =>
    obtain ⟨s₂, hu2, h2, -⟩ := h.up n
    cases hu.symm.trans hu2
    exact h2.setData d

theorem MonMove.place_other (h : MonInv C s) (hm : MonMove C s e s') (hg : e ≠ .go t)
    (he : ∀ c, e ≠ .enter t c) : s'.place t = s.place t := by
  have hne : ∀ {u : Tid}, e = .go u → t ≠ u := by
    rintro u rfl rfl
    exact hg rfl
  cases hm with
  | @enter u c p _ _ _ =>
    have hu : t ≠ u := fun e => he c (e ▸ rfl)
    exact update_of_ne hu ..
  | store _ _ | call _ _ _ | through _ _ _ => exact update_of_ne (hne rfl) ..
  | @up u n d p s₁ _ _ hu =>
    obtain ⟨s₂, hu2, -, hup⟩ := h.up n
    cases hu.symm.trans hu2
    exact (update_of_ne (hne rfl) ..).trans (congrFun hup.place t)
  | @intrUp i d n s₁ _ hu =>
    obtain ⟨s₂, hu2, -, hup⟩ := h.up n
    cases hu.symm.trans hu2
    exact congrFun hup.place t
  | lock _ _ | sleep _ _ _ | intr _ => rfl

theorem lockAllowed_ne_call {e : LockEvent} (ha : s.lockAllowed C e) (ht : s.place t ≠ C.out)
    (c : LockCall) : e ≠ .call t c := by
  rintro rfl
  exact ht ha

/-- **What the others cannot do** to a thread in the code: disturb its acquire or its release, or take
    the lock from it. -/
theorem MonMove.others (h : MonInv C s) (hm : MonMove C s e s') (ht : s.place t ≠ C.out)
    (hg : e ≠ .go t) : (s.lock.phase t = .out → s'.lock.phase t = .out) ∧
      (s.lock.Acquiring t → s'.lock.Acquiring t) ∧ (s.lock.Leaving t → s'.lock.Leaving t) := by
  obtain ⟨k, hk⟩ := h.token
  have hup : ∀ {n : ℕ} {s₁ : MonSys φ δ}, s.up n = some s₁ →
      (s.lock.phase t = .out → s₁.lock.phase t = .out) ∧
      (s.lock.Acquiring t → s₁.lock.Acquiring t) ∧ (s.lock.Leaving t → s₁.lock.Leaving t) := by
    intro n s₁ hu
    obtain ⟨s₂, hu2, -, hup⟩ := h.up n
    cases hu.symm.trans hu2
    unfold LockSys.Acquiring LockSys.Leaving
    rw [hup.phase, hup.holder]
    exact ⟨id, id, id⟩
  have hlock : ∀ {x : LockEvent} {l : LockSys}, lockStep s.lock x = some l →
      (∀ c, x ≠ .call t c) → (s.lock.phase t = .out → l.phase t = .out) ∧
      (s.lock.Acquiring t → l.Acquiring t) ∧ (s.lock.Leaving t → l.Leaving t) := fun hs hcall =>
    ⟨lockStep_out hs hcall, fun ha => lockStep_acquiring hk ha hs hcall, lockStep_leaving hs hcall⟩
  cases hm with
  | lock hal hs => exact hlock hs (lockAllowed_ne_call hal ht)
  | @call u c p l _ _ hs =>
    have hcall : ∀ c', LockEvent.call u c ≠ .call t c' := by
      rintro c' e
      cases e
      exact hg rfl
    exact hlock hs hcall
  | up _ _ hu | intrUp _ hu =>
    obtain ⟨hphase, hacq, hleave⟩ := hup hu
    exact ⟨hphase, hacq, hleave⟩
  | enter _ _ _ | store _ _ | sleep _ _ _ | through _ _ _ | intr _ => exact ⟨id, id, id⟩

theorem MonMove.holding (h : MonInv C s) (hm : MonMove C s e s') (ht : s.place t ≠ C.out)
    (hg : e ≠ .go t) (hh : s.lock.phase t = .out ∧ s.lock.holder = some t) :
    s'.lock.phase t = .out ∧ s'.lock.holder = some t := by
  obtain ⟨hphase, hacq, -⟩ := hm.others h ht hg
  exact ⟨hphase hh.1, (hacq (.inr (.inr (.inr hh)))).holder (hphase hh.1)⟩

end Inv

end Pintos
