/-
  Subject:   One condition variable with one lock: `cond_wait`, `cond_signal` and `cond_broadcast`
             under any number of threads and any interleaving.

  A waiter registers a semaphore of its own on `cond->waiters`, releases the lock and only then sleeps.
  Registrations are numbered, and semaphore `n` of the bank is the one of registration `n`, initialised
  to 0 before anybody can see it. The code is that of synch.c, a statement at a time, over the lock of
  LockMutex.lean; beside it all threads call the functions of the lock as they like.

  `owner`, `upped`, `returned` and `log` are not in the source: who registered, the registrations whose
  semaphore was upped, those whose `cond_wait` has returned, and for each call of `cond_signal` and
  `cond_broadcast` that is over, who was registered when it was made and whose semaphore it upped.

  **`cond_loses_no_signal`**: `CondOk` in every run.
-/
import Pintos.Threads.Monitor

namespace Pintos

open Lib Function List

/-! ## 1. The code of synch.c -/

/-- Where a thread is. `n` is a registration; a call of `cond_signal`, alone or in `cond_broadcast`
    (`all`), keeps who was registered when it was made and whose semaphore it has upped. -/
inductive CondPlace where
  | out
  | wait
  | waitRelease (n : ℕ)
  | waitDown (n : ℕ)
  | waitAcquire (n : ℕ)
  | waitReturn (n : ℕ)
  | signal (all : Bool) (regs done : List ℕ)
  | signalUp (all : Bool) (regs done : List ℕ) (n : ℕ)
  | broadcast (regs done : List ℕ)
  deriving DecidableEq, Repr

/-- A call of `cond_signal` or `cond_broadcast` that is over. -/
structure CondRecord where
  all : Bool
  registered : List ℕ
  upped : List ℕ
  deriving DecidableEq, Repr

structure CondData where
  /-- `cond->waiters`. -/
  waiters : List ℕ
  nextReg : ℕ
  owner : ℕ → Tid
  upped : List ℕ
  returned : List ℕ
  log : List CondRecord

inductive CondCall where
  | wait
  | signal
  | broadcast
  deriving DecidableEq, Repr

/-- The end of a call of `cond_signal` or `cond_broadcast`. -/
def CondData.finish (d : CondData) (all : Bool) (regs done : List ℕ) : CondData :=
  { d with log := d.log ++ [⟨all, regs, done⟩] }

/-- The next statement of thread `t`; `h` is the holder of the lock. -/
def condCode (h : Option Tid) (d : CondData) (t : Tid) : CondPlace → Option (Stmt CondPlace CondData)
  | .out => none
  | .wait =>
    some (.store { d with
      waiters := d.waiters ++ [d.nextReg]
      nextReg := d.nextReg + 1
      owner := update d.owner d.nextReg t } (.waitRelease d.nextReg))
  | .waitRelease n => some (.lock .release (.waitDown n))
  | .waitDown n => some (.down n d (.waitAcquire n))
  | .waitAcquire n => some (.lock .acquire (.waitReturn n))
  | .waitReturn n => some (.store { d with returned := n :: d.returned } .out)
  | .signal all regs done =>
    match d.waiters with
    | [] =>
      if all then some (.store d (.broadcast regs done))
      else some (.store (d.finish false regs done) .out)
    | n :: ns => some (.store { d with waiters := ns } (.signalUp all regs done n))
  | .signalUp all regs done n =>
    let d' := { d with upped := d.upped ++ [n] }
    if all then some (.up n d' (.broadcast regs (done ++ [n])))
    else some (.up n (d'.finish false regs (done ++ [n])) .out)
  | .broadcast regs done =>
    match d.waiters with
    | [] => some (.store (d.finish true regs done) .out)
    | _ :: _ => if h = some t then some (.store d (.signal true regs done)) else none

def CondPlace.sleeps : CondPlace → Option ℕ
  | .waitDown n => some n
  | _ => none

variable {d d' : CondData} {p p' : CondPlace} {all : Bool} {regs : List ℕ} {m n : ℕ}

theorem condCode_down {h : Option Tid} {t : Tid} (hc : condCode h d t p = some (.down n d' p')) :
    p.sleeps = some n := by
  unfold condCode at hc
  split at hc
  · cases hc
  · cases hc
  · cases hc
  · cases hc
    rfl
  · cases hc
  · cases hc
  · split at hc
    · split at hc <;> cases hc
    · cases hc
  · simp only at hc
    split at hc <;> cases hc
  · split at hc
    · cases hc
    · split at hc <;> cases hc

/-- The condition variable. All three functions are called with the lock held. -/
def condClient : Client CondPlace CondData CondCall Empty where
  out := .out
  enter h d t c :=
    if h = some t then
      match c with
      | .wait => some .wait
      | .signal => some (.signal false d.waiters [])
      | .broadcast => some (.broadcast d.waiters [])
    else none
  code := condCode
  handler := nofun
  sleeps := CondPlace.sleeps
  sleeps_out := rfl
  sleeps_down := condCode_down

abbrev CondSys := MonSys CondPlace CondData

/-- `cond_init` and `lock_init`. -/
def condInit (status : Tid → ThreadStatus) (priority : Tid → Int) : CondSys :=
  .init condClient ⟨[], 0, fun _ => 0, [], [], []⟩ status priority

/-- What the call upped so far that a thread is in. -/
def CondPlace.done : CondPlace → Option (List ℕ)
  | .signal _ _ done => some done
  | .signalUp _ _ done _ => some done
  | .broadcast _ done => some done
  | _ => none

/-- How many statements that call has left, at most. -/
def CondPlace.left : CondPlace → ℕ
  | .signal _ regs done => 3 * (regs.length - done.length) + 1
  | .signalUp _ regs done _ => 3 * (regs.length - done.length)
  | .broadcast regs done => 3 * (regs.length - done.length) + 2
  | _ => 0

/-- The registrations that the calls which are over made able to return. -/
def CondData.signalled (d : CondData) : List ℕ := d.log.flatMap (·.upped)

/-- **No signal is lost.** -/
structure CondOk (s : CondSys) : Prop where
  /-- A `cond_signal` upped the first of those registered when it was made, a `cond_broadcast` all of
      them and no other. -/
  calls : ∀ r ∈ s.data.log, r.upped = if r.all then r.registered else r.registered.take 1
  /-- Every upped semaphore is upped by one call, and only once. -/
  once : s.data.upped.Nodup
  settled : (∀ t, (s.place t).done = none) → s.data.upped = s.data.signalled
  current : ∀ t done, (s.place t).done = some done → s.data.upped = s.data.signalled ++ done
  /-- A thread whose semaphore was upped is not blocked, on it or otherwise; once it is out of
      `lock_release` its `sema_down` comes through. -/
  able : ∀ t n, s.place t = .waitDown n → n ∈ s.data.upped →
    t ∉ (s.bank n).waiters ∧ s.status t ≠ .blocked ∧ s.lock.Leaving t ∧
    (s.lock.phase t = .out →
      ∃ s', monStep condClient s (.go t) = some s' ∧ s'.place t = .waitAcquire n)
  /-- The others do not come through. -/
  unable : ∀ t n s', s.place t = .waitDown n → n ∉ s.data.upped →
    monStep condClient s (.go t) = some s' → s'.place t = .waitDown n
  returned : ∀ n ∈ s.data.returned, n ∈ s.data.upped
  /-- At the end of `cond_wait` the thread was signalled and holds the lock. -/
  holds : ∀ t n, s.place t = .waitReturn n → s.lock.phase t = .out →
    n ∈ s.data.upped ∧ s.lock.holder = some t
  /-- `cond_signal` and `cond_broadcast` go through, and come to an end. -/
  goes : ∀ t, (s.place t).done ≠ none → s.Free t →
    ∃ s', monStep condClient s (.go t) = some s' ∧ (s'.place t).left < (s.place t).left

/-! ## 2. The invariant -/

def CondHolding (s : CondSys) (t : Tid) : Prop := s.lock.phase t = .out ∧ s.lock.holder = some t

/-- Registration `n` is that of `t`, which has not come through its `sema_down`: the semaphore is 1 if
    it was upped. -/
def CondWaiting (s : CondSys) (t : Tid) (n : ℕ) : Prop :=
  n < s.data.nextReg ∧ s.data.owner n = t ∧ (n ∈ s.data.upped → (s.bank n).value = 1)

/-- A call of `cond_signal` or `cond_broadcast` by `t`, with `rest` of those registered still to go. -/
def CondSignalling (s : CondSys) (t : Tid) (all : Bool) (regs done rest : List ℕ) : Prop :=
  CondHolding s t ∧ regs = done ++ rest ∧ (all = false → done = []) ∧
    s.data.upped = s.data.signalled ++ done

/-- What holds of a thread, by its place. -/
def CondThread (s : CondSys) (t : Tid) : CondPlace → Prop
  | .out => True
  | .wait => CondHolding s t
  | .waitRelease n => CondHolding s t ∧ CondWaiting s t n
  | .waitDown n => CondWaiting s t n ∧ s.lock.Leaving t
  | .waitAcquire n => n ∈ s.data.upped
  | .waitReturn n => n ∈ s.data.upped ∧ s.lock.Acquiring t
  | .signal all regs done =>
    CondSignalling s t all regs done s.data.waiters ∧ (all = true → s.data.waiters ≠ [])
  | .signalUp all regs done n =>
    CondSignalling s t all regs done (n :: s.data.waiters) ∧ n < s.data.nextReg ∧
      n ∉ s.data.waiters ∧ n ∉ s.data.upped
  | .broadcast regs done => CondSignalling s t true regs done s.data.waiters

/-- Places that a thread leaves only with the lock in its hands. -/
def CondPlace.inside : CondPlace → Bool
  | .wait | .waitRelease _ | .signal .. | .signalUp .. | .broadcast .. => true
  | _ => false

/-- What holds of the registrations and of the calls that are over. -/
structure CondRegs (d : CondData) : Prop where
  nodup : (d.waiters ++ d.upped).Nodup
  bound : ∀ n ∈ d.waiters ++ d.upped, n < d.nextReg
  returned : ∀ n ∈ d.returned, n ∈ d.upped
  calls : ∀ r ∈ d.log, r.upped = if r.all then r.registered else r.registered.take 1

/-- What holds of the semaphores. -/
structure CondBank (s : CondSys) : Prop where
  silent : ∀ n, n ∉ s.data.upped → (s.bank n).value = 0
  empty : ∀ n ∈ s.data.upped, (s.bank n).waiters = []

structure CondInv (s : CondSys) : Prop where
  mon : MonInv condClient s
  regs : CondRegs s.data
  bank : CondBank s
  thread : ∀ t, CondThread s t (s.place t)
  settled : (∀ t, (s.place t).done = none) → s.data.upped = s.data.signalled

namespace CondInv

variable {s s' : CondSys} {t : Tid} {n : ℕ}

theorem init (status : Tid → ThreadStatus) (priority : Tid → Int) :
    CondInv (condInit status priority) where
  mon := .init condClient _ status priority
  regs := ⟨nodup_nil, fun _ h => absurd h not_mem_nil, fun _ h => absurd h not_mem_nil,
    fun _ h => absurd h not_mem_nil⟩
  bank := ⟨fun _ _ => rfl, fun _ h => absurd h not_mem_nil⟩
  thread _ := trivial
  settled _ := rfl

theorem holding (h : CondInv s) (ht : (s.place t).inside = true) : CondHolding s t := by
  have hth := h.thread t
  cases hp : s.place t with
  | wait =>
    rw [hp] at hth
    exact hth
  | waitRelease n =>
    rw [hp] at hth
    exact hth.1
  | signal all regs done =>
    rw [hp] at hth
    exact hth.1.1
  | signalUp all regs done n =>
    rw [hp] at hth
    exact hth.1.1
  | broadcast regs done =>
    rw [hp] at hth
    exact hth.1
  | out | waitDown | waitAcquire | waitReturn =>
    rw [hp] at ht
    cases ht

theorem alone (h : CondInv s) {u : Tid} (ht : CondHolding s t) (hu : u ≠ t) :
    (s.place u).inside = false := by
  cases hc : (s.place u).inside with
  | false => rfl
  | true => exact absurd (Option.some.inj ((h.holding hc).2.symm.trans ht.2)) hu

theorem inside_of_done {done : List ℕ} (h : p.done = some done) : p.inside = true := by
  cases p <;> first | rfl | cases h

/-- While `t` holds the lock outside of a call of its own, no call is under way. -/
theorem none_signalling (h : CondInv s) (ht : CondHolding s t) (hd : (s.place t).done = none) :
    s.data.upped = s.data.signalled := by
  refine h.settled fun u => ?_
  by_cases hu : u = t
  · rw [hu]
    exact hd
  · cases hc : (s.place u).done with
    | none => rfl
    | some done => exact absurd ((inside_of_done hc).symm.trans (h.alone ht hu)) nofun

/-- At most one thread sleeps on a registration's semaphore: its owner. -/
theorem sleeper (h : CondInv s) (hm : t ∈ (s.bank n).waiters) :
    s.place t = .waitDown n ∧ s.data.owner n = t := by
  obtain ⟨-, -, hs⟩ := h.mon.asleep n t hm
  have hth := h.thread t
  cases hp : s.place t with
  | waitDown m =>
    rw [hp] at hs hth
    cases hs
    exact ⟨rfl, hth.1.2.1⟩
  | out | wait | waitRelease | waitAcquire | waitReturn | signal | signalUp | broadcast =>
    rw [hp] at hs
    cases hs

theorem one_sleeper (h : CondInv s) (n : ℕ) : (s.bank n).waiters.length ≤ 1 := by
  have hnd := h.mon.nodup n
  match hw : (s.bank n).waiters with
  | [] => exact Nat.zero_le 1
  | [_] => exact Nat.le_refl 1
  | t :: u :: l =>
    have ht := (h.sleeper (hw ▸ mem_cons_self : t ∈ (s.bank n).waiters)).2
    have hu := (h.sleeper
      (hw ▸ mem_cons_of_mem _ mem_cons_self : u ∈ (s.bank n).waiters)).2
    rw [hw] at hnd
    exact absurd (ht.symm.trans hu ▸ mem_cons_self) (nodup_cons.mp hnd).1

/-! ## 3. Steps: what the others keep -/

variable {e : MonEvent CondCall Empty}

/-- A thread that is not the actor, after a step that leaves the registrations and its own semaphore
    alone. -/
theorem thread_other (h : CondInv s) (hm : MonMove condClient s e s') (hg : e ≠ .go t)
    (he : ∀ c, e ≠ .enter t c) (hd : s'.data = { s.data with returned := s'.data.returned })
    (hb : ∀ n, s.data.owner n = t → s'.bank n = s.bank n) : CondThread s' t (s'.place t) := by
  have hth := h.thread t
  have hhold : s.place t ≠ .out → CondHolding s t → CondHolding s' t := fun hout hh =>
    hm.holding h.mon hout hg hh
  have hwait : ∀ {n : ℕ}, CondWaiting s t n → CondWaiting s' t n := by
    rintro n ⟨hlt, hown, hval⟩
    refine ⟨by rw [hd]; exact hlt, by rw [hd]; exact hown, fun hu => ?_⟩
    rw [hd] at hu
    rw [hb n hown]
    exact hval hu
  have hsig : s.place t ≠ .out → ∀ {all : Bool} {regs done rest : List ℕ},
      CondSignalling s t all regs done rest → CondSignalling s' t all regs done rest := by
    rintro hout all regs done rest ⟨hh, hregs, hdone, hup⟩
    refine ⟨hhold hout hh, hregs, hdone, ?_⟩
    rw [hd]
    exact hup
  rw [hm.place_other h.mon hg he]
  cases hp : s.place t with
  | out => trivial
  | wait =>
    rw [hp] at hth hhold
    exact hhold nofun hth
  | waitRelease n =>
    rw [hp] at hth hhold
    exact ⟨hhold nofun hth.1, hwait hth.2⟩
  | waitDown n =>
    rw [hp] at hth
    exact ⟨hwait hth.1, (hm.others h.mon (by rw [hp]; nofun) hg).2.2 hth.2⟩
  | waitAcquire n =>
    rw [hp] at hth
    show n ∈ s'.data.upped
    rw [hd]
    exact hth
  | waitReturn n =>
    rw [hp] at hth
    have hacq := (hm.others h.mon (by rw [hp]; nofun) hg).2.1 hth.2
    refine ⟨?_, hacq⟩
    rw [hd]
    exact hth.1
  | signal all regs done | signalUp all regs done n =>
    rw [hp] at hth hsig
    refine ⟨?_, ?_⟩
    · rw [hd]
      exact hsig nofun hth.1
    · rw [hd]
      exact hth.2
  | broadcast regs done =>
    rw [hp] at hth hsig
    show CondSignalling s' t true regs done s'.data.waiters
    rw [hd]
    exact hsig nofun hth

/-- **A step of a thread that does not hold the lock**: it touches its own semaphore at most. -/
theorem byWaiter (h : CondInv s) (hm : MonMove condClient s (.go t) s')
    (hd : s'.data = { s.data with returned := s'.data.returned })
    (hret : ∀ n ∈ s'.data.returned, n ∈ s.data.upped)
    (hb : ∀ n, s.data.owner n ≠ t → s'.bank n = s.bank n) (hbank : CondBank s')
    (hth : CondThread s' t (s'.place t)) (hdone : (s'.place t).done = (s.place t).done) :
    CondInv s' := by
  have hgo : ∀ {u : Tid}, u ≠ t → MonEvent.go t ≠ (.go u : MonEvent CondCall Empty) := by
    intro u hu e
    cases e
    exact hu rfl
  refine ⟨h.mon.step hm, ?_, hbank, fun u => ?_, fun hn => ?_⟩
  · refine ⟨by rw [hd]; exact h.regs.nodup, by rw [hd]; exact h.regs.bound, fun n hr => ?_,
      by rw [hd]; exact h.regs.calls⟩
    have hup := hret n hr
    rw [hd]
    exact hup
  · by_cases hu : u = t
    · rw [hu]
      exact hth
    · exact h.thread_other hm (hgo hu) nofun hd fun n hown => hb n fun e => hu (hown.symm.trans e)
  · have hall : ∀ u, (s.place u).done = none := fun u => by
      by_cases hu : u = t
      · rw [hu, ← hdone]
        exact hn t
      · rw [← hm.place_other h.mon (hgo hu) nofun]
        exact hn u
    rw [hd]
    exact h.settled hall

/-- **A step of the thread that holds the lock**: the others are not inside, and their semaphores are
    as they were, or upped. -/
theorem byHolder (h : CondInv s) (hm : MonMove condClient s e s')
    (ha : ∀ u, u ≠ t → e ≠ .go u ∧ ∀ c, e ≠ .enter u c) (ht : CondHolding s t)
    (hreg : s.data.nextReg ≤ s'.data.nextReg)
    (hown : ∀ n < s.data.nextReg, s'.data.owner n = s.data.owner n)
    (hup : ∀ n ∈ s.data.upped, n ∈ s'.data.upped)
    (hval : ∀ n, n ∈ s'.data.upped → (n ∈ s.data.upped ∧ s'.bank n = s.bank n) ∨
      (s'.bank n).value = 1)
    (hregs : CondRegs s'.data) (hbank : CondBank s') (hth : CondThread s' t (s'.place t))
    (hset : (s'.place t).done = none → s'.data.upped = s'.data.signalled) : CondInv s' := by
  refine ⟨h.mon.step hm, hregs, hbank, fun u => ?_, fun hn => hset (hn t)⟩
  by_cases hu : u = t
  · rw [hu]
    exact hth
  · obtain ⟨hg, he⟩ := ha u hu
    have hout := h.alone ht hu
    have huth := h.thread u
    rw [hm.place_other h.mon hg he]
    cases hp : s.place u with
    | out => trivial
    | waitDown n =>
      rw [hp] at huth
      obtain ⟨⟨hlt, howner, hv⟩, hleave⟩ := huth
      refine ⟨⟨Nat.lt_of_lt_of_le hlt hreg, (hown n hlt).trans howner, fun hu' => ?_⟩,
        (hm.others h.mon (by rw [hp]; nofun) hg).2.2 hleave⟩
      rcases hval n hu' with ⟨hold, hb⟩ | hone
      · rw [hb]
        exact hv hold
      · exact hone
    | waitAcquire n =>
      rw [hp] at huth
      exact hup n huth
    | waitReturn n =>
      rw [hp] at huth
      exact ⟨hup n huth.1, (hm.others h.mon (by rw [hp]; nofun) hg).2.1 huth.2⟩
    | wait | waitRelease | signal | signalUp | broadcast =>
      rw [hp] at hout
      cases hout

/-! ## 4. Steps: the actor -/

theorem holderStore (h : CondInv s)
    (hm : MonMove condClient s e (MonSys.setPlace { s with data := d } t p))
    (ha : ∀ u, u ≠ t → e ≠ .go u ∧ ∀ c, e ≠ .enter u c) (ht : CondHolding s t)
    (hreg : s.data.nextReg ≤ d.nextReg) (hown : ∀ n < s.data.nextReg, d.owner n = s.data.owner n)
    (hup : d.upped = s.data.upped) (hregs : CondRegs d)
    (hth : CondThread (MonSys.setPlace { s with data := d } t p) t p)
    (hset : p.done = none → d.upped = d.signalled) :
    CondInv (MonSys.setPlace { s with data := d } t p) := by
  have hplace : (MonSys.setPlace { s with data := d } t p).place t = p := update_self ..
  refine h.byHolder hm ha ht hreg hown (fun n hn => ?_) (fun n hn => ?_) hregs ?_ ?_ ?_
  · exact hup.symm ▸ hn
  · exact .inl ⟨hup ▸ hn, rfl⟩
  · exact ⟨fun n hn => h.bank.silent n fun hm => hn (hup.symm ▸ hm), fun n hn => h.bank.empty n (hup ▸ hn)⟩
  · rw [hplace]
    exact hth
  · rw [hplace]
    exact hset

theorem only_go : ∀ u, u ≠ t → MonEvent.go t ≠ (.go u : MonEvent CondCall Empty) ∧
    ∀ c, MonEvent.go t ≠ (.enter u c : MonEvent CondCall Empty) := fun u hu =>
  ⟨fun e => hu (by cases e; rfl), nofun⟩

theorem push (h : CondInv s) (hp : s.place t = .wait)
    (hm : MonMove condClient s (.go t) (MonSys.setPlace { s with
      data := { s.data with
        waiters := s.data.waiters ++ [s.data.nextReg]
        nextReg := s.data.nextReg + 1
        owner := update s.data.owner s.data.nextReg t } } t (.waitRelease s.data.nextReg))) :
    CondInv (MonSys.setPlace { s with
      data := { s.data with
        waiters := s.data.waiters ++ [s.data.nextReg]
        nextReg := s.data.nextReg + 1
        owner := update s.data.owner s.data.nextReg t } } t
          (.waitRelease s.data.nextReg)) := by
  have ht : CondHolding s t := h.holding (by rw [hp]; rfl)
  have hfresh : s.data.nextReg ∉ s.data.waiters ++ s.data.upped := fun hn =>
    Nat.lt_irrefl _ (h.regs.bound _ hn)
  refine h.holderStore hm only_go ht (Nat.le_succ _) (fun n hn => ?_) rfl ?_ ⟨ht, ?_⟩ fun _ => ?_
  · exact update_of_ne (Nat.ne_of_lt hn) ..
  · refine ⟨?_, fun n hn => ?_, h.regs.returned, h.regs.calls⟩
    · rw [append_assoc]
      exact perm_middle.nodup_iff.mpr (nodup_cons.mpr ⟨hfresh, h.regs.nodup⟩)
    · have hn' : n ∈ s.data.waiters ++ [s.data.nextReg] ++ s.data.upped := hn
      rw [append_assoc] at hn'
      rcases mem_cons.mp (perm_middle.mem_iff.mp hn') with rfl | hold
      · exact Nat.lt_succ_self _
      · exact Nat.lt_succ_of_lt (h.regs.bound n hold)
  · exact ⟨Nat.lt_succ_self _, update_self .., fun hu =>
      absurd (mem_append_right _ hu) hfresh⟩
  · exact h.none_signalling ht (by rw [hp]; rfl)

theorem finish_regs (h : CondRegs d) {done : List ℕ}
    (hr : done = if all then regs else regs.take 1) : CondRegs (d.finish all regs done) where
  nodup := h.nodup
  bound := h.bound
  returned := h.returned
  calls r hm := by
    rcases mem_append.mp hm with hm | hm
    · exact h.calls r hm
    · cases mem_singleton.mp hm
      exact hr

theorem finish_signalled {done : List ℕ} :
    (d.finish all regs done).signalled = d.signalled ++ done := by
  simp [CondData.signalled, CondData.finish]

/-- The statements of `cond_signal` and `cond_broadcast` other than `sema_up`. -/
theorem signalStore (h : CondInv s) (hd : (s.place t).done ≠ none)
    (hc : condCode s.lock.holder s.data t (s.place t) = some (.store d p))
    (hm : MonMove condClient s (.go t) (MonSys.setPlace { s with data := d } t p)) :
    CondInv (MonSys.setPlace { s with data := d } t p) := by
  have hth := h.thread t
  cases hp : s.place t with
  | signal all regs done =>
    rw [hp] at hth hc
    obtain ⟨⟨ht, hregs, hdone, hup⟩, hne⟩ := hth
    simp only [condCode] at hc
    cases hw : s.data.waiters with
    | nil =>
      rw [hw] at hc hregs
      cases all with
      | true => exact absurd hw (hne rfl)
      | false =>
        cases hc
        have hnil := hdone rfl
        subst hnil
        refine h.holderStore hm only_go ht (Nat.le_refl _) (fun _ _ => rfl) rfl
          (finish_regs h.regs ?_) trivial fun _ => ?_
        · rw [hregs]
          rfl
        · rw [finish_signalled]
          exact hup
    | cons n ns =>
      rw [hw] at hc hregs
      cases hc
      have hnd := h.regs.nodup
      rw [hw] at hnd
      obtain ⟨hn, hnd'⟩ := nodup_cons.mp hnd
      have hb : ∀ m ∈ s.data.waiters ++ s.data.upped, m < s.data.nextReg := h.regs.bound
      rw [hw] at hb
      refine h.holderStore hm only_go ht (Nat.le_refl _) (fun _ _ => rfl) rfl
        ⟨hnd', fun m hm => hb m (mem_cons_of_mem _ hm), h.regs.returned, h.regs.calls⟩
        ⟨⟨ht, hregs, hdone, hup⟩, hb n mem_cons_self, ?_, ?_⟩ nofun
      · exact fun hm => hn (mem_append_left _ hm)
      · exact fun hm => hn (mem_append_right _ hm)
  | broadcast regs done =>
    rw [hp] at hth hc
    obtain ⟨ht, hregs, -, hup⟩ := hth
    simp only [condCode] at hc
    cases hw : s.data.waiters with
    | nil =>
      rw [hw] at hc hregs
      cases hc
      refine h.holderStore hm only_go ht (Nat.le_refl _) (fun _ _ => rfl) rfl
        (finish_regs h.regs ?_) trivial fun _ => ?_
      · rw [hregs, append_nil]
        rfl
      · rw [finish_signalled]
        exact hup
    | cons n ns =>
      rw [hw] at hc
      simp only [if_pos ht.2] at hc
      cases hc
      refine h.holderStore hm only_go ht (Nat.le_refl _) (fun _ _ => rfl) rfl h.regs
        ⟨⟨ht, hregs, nofun, hup⟩, fun _ hnil => ?_⟩ nofun
      exact absurd (hw.symm.trans hnil) nofun
  | signalUp all regs done n =>
    rw [hp] at hc
    simp only [condCode] at hc
    split at hc <;> cases hc
  | out | wait | waitRelease | waitDown | waitAcquire | waitReturn =>
    rw [hp] at hd
    exact absurd rfl hd

variable {s₁ : CondSys}

/-- **The `sema_up` of `cond_signal`**: the semaphore of the registration becomes 1, and nobody sleeps
    on it any more. -/
theorem signalUp (h : CondInv s) {done : List ℕ} (hp : s.place t = .signalUp all regs done n)
    (hu : Upped s s₁ n)
    (hm : MonMove condClient s (.go t) (MonSys.setPlace { s₁ with data := d } t p))
    (hnext : d.nextReg = s.data.nextReg) (hown : d.owner = s.data.owner)
    (hup : d.upped = s.data.upped ++ [n]) (hregs : CondRegs d)
    (hth : CondThread (MonSys.setPlace { s₁ with data := d } t p) t p)
    (hset : p.done = none → d.upped = d.signalled) :
    CondInv (MonSys.setPlace { s₁ with data := d } t p) := by
  have hthread := h.thread t
  rw [hp] at hthread
  obtain ⟨⟨ht, -⟩, -, -, hnew⟩ := hthread
  have hone : (s₁.bank n).value = 1 := by
    have hzero := h.bank.silent n hnew
    have hval := hu.value
    omega
  have hempty : (s₁.bank n).waiters = [] := by
    have hle := h.one_sleeper n
    have hlen := hu.waiters
    exact eq_nil_of_length_eq_zero (by omega)
  have hplace : (MonSys.setPlace { s₁ with data := d } t p).place t = p := update_self ..
  refine h.byHolder hm only_go ht (Nat.le_of_eq hnext.symm) (fun m _ => congrFun hown m)
    (fun m hm => ?_) (fun m hm => ?_) hregs ⟨fun m hm => ?_, fun m hm => ?_⟩ ?_ ?_
  · show m ∈ d.upped
    rw [hup]
    exact mem_append_left _ hm
  · have hm' : m ∈ d.upped := hm
    rw [hup] at hm'
    by_cases e : m = n
    · subst e
      exact .inr hone
    · have hold : m ∈ s.data.upped :=
        (mem_append.mp hm').resolve_right fun hx => e (mem_singleton.mp hx)
      exact .inl ⟨hold, hu.others m e⟩
  · have hm' : m ∉ d.upped := hm
    rw [hup] at hm'
    have e : m ≠ n := fun e => hm' (mem_append_right _ (mem_singleton.mpr e))
    show (s₁.bank m).value = 0
    rw [hu.others m e]
    exact h.bank.silent m fun hx => hm' (mem_append_left _ hx)
  · have hm' : m ∈ d.upped := hm
    rw [hup] at hm'
    show (s₁.bank m).waiters = []
    by_cases e : m = n
    · subst e
      exact hempty
    · rw [hu.others m e]
      exact h.bank.empty m
        ((mem_append.mp hm').resolve_right fun hx => e (mem_singleton.mp hx))
  · rw [hplace]
    exact hth
  · rw [hplace]
    exact hset

theorem upped_regs (h : CondRegs d) (hlt : n < d.nextReg) (hw : n ∉ d.waiters) (hu : n ∉ d.upped) :
    CondRegs { d with upped := d.upped ++ [n] } where
  nodup := by
    rw [← append_assoc]
    refine nodup_append.mpr ⟨h.nodup, nodup_singleton n, fun m hm k hk => ?_⟩
    rw [mem_singleton.mp hk]
    rintro rfl
    exact (mem_append.mp hm).elim hw hu
  bound m hm := by
    have hm' : m ∈ d.waiters ++ (d.upped ++ [n]) := hm
    rw [← append_assoc] at hm'
    rcases mem_append.mp hm' with hm | hm
    · exact h.bound m hm
    · rw [mem_singleton.mp hm]
      exact hlt
  returned m hm := mem_append_left _ (h.returned m hm)
  calls := h.calls

theorem upStep (h : CondInv s) (hc : condCode s.lock.holder s.data t (s.place t) = some (.up m d p))
    (hs : s.up m = some s₁)
    (hm : MonMove condClient s (.go t) (MonSys.setPlace { s₁ with data := d } t p)) :
    CondInv (MonSys.setPlace { s₁ with data := d } t p) := by
  cases hp : s.place t with
  | signalUp all regs done n =>
    have hth := h.thread t
    rw [hp] at hth hc
    obtain ⟨⟨ht, hregs, hdone, hup⟩, hlt, hw, hnew⟩ := hth
    obtain ⟨s₂, hs2, -, hu⟩ := h.mon.up m
    cases hs.symm.trans hs2
    simp only [condCode] at hc
    cases all with
    | true =>
      cases hc
      refine h.signalUp hp hu hm rfl rfl rfl (upped_regs h.regs hlt hw hnew) ⟨?_, ?_, nofun, ?_⟩ nofun
      · exact ⟨(congrFun hu.phase t).trans ht.1, hu.holder.trans ht.2⟩
      · rw [hregs, append_assoc]
        rfl
      · show s.data.upped ++ [m] = s.data.signalled ++ (done ++ [m])
        rw [hup, append_assoc]
    | false =>
      cases hc
      have hnil := hdone rfl
      subst hnil
      refine h.signalUp hp hu hm rfl rfl rfl
        (finish_regs (upped_regs h.regs hlt hw hnew) ?_) trivial fun _ => ?_
      · rw [hregs]
        rfl
      · rw [finish_signalled]
        show s.data.upped ++ [m] = s.data.signalled ++ [m]
        rw [hup, append_nil]
  | signal all regs done =>
    rw [hp] at hc
    simp only [condCode] at hc
    split at hc
    · split at hc <;> cases hc
    · cases hc
  | broadcast regs done =>
    rw [hp] at hc
    simp only [condCode] at hc
    split at hc
    · cases hc
    · split at hc <;> cases hc
  | out | wait | waitRelease | waitDown | waitAcquire | waitReturn =>
    rw [hp] at hc
    cases hc

theorem call_cases {c : LockCall}
    (hc : condCode s.lock.holder s.data t (s.place t) = some (.lock c p)) :
    ∃ n, (s.place t = .waitRelease n ∧ c = .release ∧ p = .waitDown n) ∨
      (s.place t = .waitAcquire n ∧ c = .acquire ∧ p = .waitReturn n) := by
  cases hp : s.place t with
  | waitRelease n =>
    rw [hp] at hc
    cases hc
    exact ⟨n, .inl ⟨rfl, rfl, rfl⟩⟩
  | waitAcquire n =>
    rw [hp] at hc
    cases hc
    exact ⟨n, .inr ⟨rfl, rfl, rfl⟩⟩
  | signal all regs done =>
    rw [hp] at hc
    simp only [condCode] at hc
    split at hc
    · split at hc <;> cases hc
    · cases hc
  | signalUp all regs done n =>
    rw [hp] at hc
    simp only [condCode] at hc
    split at hc <;> cases hc
  | broadcast regs done =>
    rw [hp] at hc
    simp only [condCode] at hc
    split at hc
    · cases hc
    · split at hc <;> cases hc
  | out | wait | waitDown | waitReturn =>
    rw [hp] at hc
    cases hc

theorem down_cases (hc : condCode s.lock.holder s.data t (s.place t) = some (.down m d p)) :
    s.place t = .waitDown m ∧ d = s.data ∧ p = .waitAcquire m := by
  have hsl := condCode_down hc
  cases hp : s.place t with
  | waitDown n =>
    rw [hp] at hc
    cases hc
    exact ⟨rfl, rfl, rfl⟩
  | out | wait | waitRelease | waitAcquire | waitReturn | signal | signalUp | broadcast =>
    rw [hp] at hsl
    cases hsl

theorem go (h : CondInv s) (hm : MonMove condClient s (.go t) s') : CondInv s' := by
  have hm' := hm
  have hth := h.thread t
  cases hm with
  | @store _ d p hf hc =>
    cases hp : s.place t with
    | wait =>
      have hc' : condCode s.lock.holder s.data t .wait = some (.store d p) := hp ▸ hc
      cases hc'
      exact h.push hp hm'
    | waitReturn n =>
      have hc' : condCode s.lock.holder s.data t (.waitReturn n) = some (.store d p) := hp ▸ hc
      cases hc'
      rw [hp] at hth
      refine h.byWaiter hm' rfl (fun m hm => ?_) (fun _ _ => rfl) ⟨h.bank.silent, h.bank.empty⟩ ?_ ?_
      · rcases mem_cons.mp hm with rfl | hm
        · exact hth.1
        · exact h.regs.returned m hm
      · simp only [MonSys.setPlace, update_self]
        trivial
      · simp only [MonSys.setPlace, update_self, hp]
        rfl
    | signal | signalUp | broadcast => exact h.signalStore (by rw [hp]; rintro ⟨⟩) hc hm'
    | out | waitRelease | waitDown | waitAcquire =>
      rw [hp] at hc
      cases hc
  | @call _ c p l hf hc hs =>
    simp only [lockStep] at hs
    split at hs
    · cases hs
      obtain ⟨n, ⟨hp, rfl, rfl⟩ | ⟨hp, rfl, rfl⟩⟩ := call_cases hc
      · rw [hp] at hth
        refine h.byWaiter hm' rfl h.regs.returned (fun _ _ => rfl) ⟨h.bank.silent, h.bank.empty⟩ ?_ ?_
        · simp only [MonSys.setPlace, update_self]
          exact ⟨hth.2, .inl (update_self ..)⟩
        · simp only [MonSys.setPlace, update_self, hp]
          rfl
      · rw [hp] at hth
        refine h.byWaiter hm' rfl h.regs.returned (fun _ _ => rfl) ⟨h.bank.silent, h.bank.empty⟩ ?_ ?_
        · simp only [MonSys.setPlace, update_self]
          exact ⟨hth, .inl (update_self ..)⟩
        · simp only [MonSys.setPlace, update_self, hp]
          rfl
    · cases hs
  | @sleep _ m d p hf hc hv =>
    obtain ⟨hp, -, -⟩ := down_cases hc
    rw [hp] at hth
    obtain ⟨⟨hlt, hown, hval⟩, hleave⟩ := hth
    have hnot : m ∉ s.data.upped := fun hu => absurd (hv.symm.trans (hval hu)) (by simp)
    have hsame : ∀ k, ((s.putBack m ((s.view m).block t)).bank k).value = (s.bank k).value := by
      intro k
      by_cases e : k = m
      · subst e
        simp only [MonSys.putBack, update_self]
        rfl
      · simp only [MonSys.putBack, update_of_ne e]
    refine h.byWaiter hm' rfl h.regs.returned (fun k hk => ?_) ⟨fun k hk => ?_, fun k hk => ?_⟩ ?_ rfl
    · have e : k ≠ m := fun e => hk (e ▸ hown)
      exact update_of_ne e ..
    · rw [hsame]
      exact h.bank.silent k hk
    · have e : k ≠ m := fun e => hnot (e ▸ hk)
      simp only [MonSys.putBack, update_of_ne e]
      exact h.bank.empty k hk
    · show CondThread _ t (s.place t)
      rw [hp]
      exact ⟨⟨hlt, hown, fun hu => absurd hu hnot⟩, hleave⟩
  | @through _ m d p hf hc hv =>
    obtain ⟨hp, rfl, rfl⟩ := down_cases hc
    rw [hp] at hth
    have hup : m ∈ s.data.upped := by
      by_contra hn
      exact hv (h.bank.silent m hn)
    refine h.byWaiter hm' rfl h.regs.returned (fun k hk => ?_) ⟨fun k hk => ?_, fun k hk => ?_⟩ ?_ ?_
    · have e : k ≠ m := fun e => hk (e ▸ hth.1.2.1)
      exact update_of_ne e ..
    · have e : k ≠ m := fun e => hk (e ▸ hup)
      simp only [MonSys.setPlace, MonSys.putBack, update_of_ne e]
      exact h.bank.silent k hk
    · have hwait := h.bank.empty k hk
      by_cases e : k = m
      · subst e
        simp only [MonSys.setPlace, MonSys.putBack, update_self]
        exact hwait
      · simp only [MonSys.setPlace, MonSys.putBack, update_of_ne e]
        exact hwait
    · simp only [MonSys.setPlace, update_self]
      exact hup
    · simp only [MonSys.setPlace, update_self, hp]
      rfl
  | @up _ m d p s₁ hf hc hu => exact h.upStep hc hu hm'

theorem step (h : CondInv s) (hm : MonMove condClient s e s') : CondInv s' := by
  cases e with
  | go t => exact h.go hm
  | intr i => exact nomatch i
  | lock e =>
    have hm' := hm
    cases hm with
    | lock _ _ =>
      exact ⟨h.mon.step hm', h.regs, ⟨h.bank.silent, h.bank.empty⟩, fun t =>
        h.thread_other hm' nofun nofun rfl fun _ _ => rfl, h.settled⟩
  | enter t c =>
    have hm' := hm
    cases hm with
    | @enter _ _ p hout hf hc =>
      simp only [condClient] at hc
      split at hc
      · rename_i hh
        have ht : CondHolding s t := ⟨hf.1, hh⟩
        have hset := h.none_signalling ht (by rw [hout]; rfl)
        have ha : ∀ u, u ≠ t → MonEvent.enter t c ≠ (.go u : MonEvent CondCall Empty) ∧
            ∀ c', MonEvent.enter t c ≠ (.enter u c' : MonEvent CondCall Empty) :=
          fun u hu => ⟨nofun, fun c' e => hu (by cases e; rfl)⟩
        cases c with
        | wait =>
          cases hc
          exact h.holderStore hm' ha ht (Nat.le_refl _) (fun _ _ => rfl) rfl h.regs ht fun _ => hset
        | signal =>
          cases hc
          exact h.holderStore hm' ha ht (Nat.le_refl _) (fun _ _ => rfl) rfl h.regs
            ⟨⟨ht, rfl, fun _ => rfl, hset.trans (append_nil _).symm⟩, nofun⟩ nofun
        | broadcast =>
          cases hc
          exact h.holderStore hm' ha ht (Nat.le_refl _) (fun _ _ => rfl) rfl h.regs
            ⟨ht, rfl, nofun, hset.trans (append_nil _).symm⟩ nofun
      · cases hc

/-! ## 5. What follows -/

/-- A thread whose semaphore was upped is not blocked: not on the lock, which it is leaving, and not in
    the bank, where it could sleep on that semaphore only. -/
theorem upped_awake (h : CondInv s) (hp : s.place t = .waitDown n) (hu : n ∈ s.data.upped) :
    s.status t ≠ .blocked := by
  intro hb
  have hleave := h.thread t
  rw [hp] at hleave
  rcases h.mon.awake t (by rw [hp]; nofun) hb with hw | ⟨m, hw⟩
  · obtain ⟨u, hu⟩ := h.mon.waits t (.inl hw)
    rcases hleave.2 with hl | hl | hl <;> exact absurd (hl.symm.trans hu) nofun
  · have hsl := (h.mon.asleep m t hw).2.2
    rw [hp] at hsl
    cases hsl
    rw [h.bank.empty n hu] at hw
    exact not_mem_nil hw

theorem able (h : CondInv s) (hp : s.place t = .waitDown n) (hu : n ∈ s.data.upped) :
    t ∉ (s.bank n).waiters ∧ s.status t ≠ .blocked ∧ s.lock.Leaving t ∧
      (s.lock.phase t = .out →
        ∃ s', monStep condClient s (.go t) = some s' ∧ s'.place t = .waitAcquire n) := by
  have hth := h.thread t
  rw [hp] at hth
  have hawake := h.upped_awake hp hu
  refine ⟨?_, hawake, hth.2, fun hout => ?_⟩
  · rw [h.bank.empty n hu]
    exact not_mem_nil
  · have hf : s.Free t := ⟨hout, hawake⟩
    have hv : (s.view n).sema.value ≠ 0 := by
      rw [show (s.view n).sema.value = 1 from hth.1.2.2 hu]
      nofun
    have hc : condCode s.lock.holder s.data t (s.place t) = some (.down n s.data (.waitAcquire n)) := by
      rw [hp]
      rfl
    refine ⟨{ s.putBack n (s.view n).take with data := s.data }.setPlace t (.waitAcquire n), ?_,
      update_self ..⟩
    rw [monStep_go hf hc]
    simp only [MonSys.exec, SemaSys.semaTest, if_neg hv, if_true]

theorem unable (h : CondInv s) (hp : s.place t = .waitDown n) (hu : n ∉ s.data.upped)
    (hs : monStep condClient s (.go t) = some s') : s'.place t = .waitDown n := by
  have hv := h.bank.silent n hu
  cases monStep_move hs with
  | sleep _ _ _ => exact hp
  | through _ hc hv' =>
    obtain ⟨hp', -, -⟩ := down_cases hc
    rw [hp] at hp'
    cases hp'
    exact absurd hv hv'
  | store _ hc | call _ hc _ | up _ hc _ =>
    rw [hp] at hc
    cases hc

theorem goes (h : CondInv s) (hd : (s.place t).done ≠ none) (hf : s.Free t) :
    ∃ s', monStep condClient s (.go t) = some s' ∧ (s'.place t).left < (s.place t).left := by
  have hth := h.thread t
  -- a store goes through, whatever it stores
  have hstore : ∀ (d : CondData) (p : CondPlace),
      condCode s.lock.holder s.data t (s.place t) = some (.store d p) → p.left < (s.place t).left →
      ∃ s', monStep condClient s (.go t) = some s' ∧ (s'.place t).left < (s.place t).left := by
    intro d p hc hlt
    refine ⟨MonSys.setPlace { s with data := d } t p, (monStep_go (C := condClient) hf hc).trans rfl, ?_⟩
    simp only [MonSys.setPlace, update_self]
    exact hlt
  have hup : ∀ {m : ℕ} {d : CondData} {p : CondPlace},
      condCode s.lock.holder s.data t (s.place t) = some (.up m d p) → p.left < (s.place t).left →
      ∃ s', monStep condClient s (.go t) = some s' ∧ (s'.place t).left < (s.place t).left := by
    intro m d p hc hlt
    obtain ⟨s₁, hs1, -⟩ := h.mon.up m
    refine ⟨MonSys.setPlace { s₁ with data := d } t p, ?_, ?_⟩
    · rw [monStep_go hf hc]
      simp only [MonSys.exec, hs1, Option.map_some]
    · simp only [MonSys.setPlace, update_self]
      exact hlt
  cases hp : s.place t with
  | signal all regs done =>
    rw [hp] at hth hstore
    cases hw : s.data.waiters with
    | nil =>
      cases all with
      | true => exact absurd hw (hth.2 rfl)
      | false =>
        refine hstore (s.data.finish false regs done) .out ?_ (Nat.succ_pos _)
        simp only [condCode, hw]
        rfl
    | cons n ns =>
      refine hstore { s.data with waiters := ns } (.signalUp all regs done n) ?_ (Nat.lt_succ_self _)
      simp only [condCode, hw]
  | signalUp all regs done n =>
    rw [hp] at hth hup
    have hlen : done.length + (s.data.waiters.length + 1) = regs.length := by
      rw [hth.1.2.1, length_append, length_cons]
    cases all with
    | true =>
      refine hup (by simp only [condCode]; rfl) ?_
      simp only [CondPlace.left, length_append, length_cons, length_nil]
      omega
    | false =>
      refine hup (by simp only [condCode]; rfl) ?_
      simp only [CondPlace.left]
      omega
  | broadcast regs done =>
    rw [hp] at hth hstore
    cases hw : s.data.waiters with
    | nil =>
      refine hstore (s.data.finish true regs done) .out ?_ (Nat.succ_pos _)
      simp only [condCode, hw]
    | cons n ns =>
      refine hstore s.data (.signal true regs done) ?_ (Nat.lt_succ_self _)
      simp only [condCode, hw, if_pos hth.1.2]
  | out | wait | waitRelease | waitDown | waitAcquire | waitReturn =>
    rw [hp] at hd
    exact absurd rfl hd

theorem ok (h : CondInv s) : CondOk s where
  calls := h.regs.calls
  once := (nodup_append.mp h.regs.nodup).2.1
  settled := h.settled
  current t done hd := by
    have hth := h.thread t
    cases hp : s.place t with
    | signal all regs done | signalUp all regs done n =>
      rw [hp] at hth hd
      cases hd
      exact hth.1.2.2.2
    | broadcast regs done =>
      rw [hp] at hth hd
      cases hd
      exact hth.2.2.2
    | out | wait | waitRelease | waitDown | waitAcquire | waitReturn =>
      rw [hp] at hd
      cases hd
  able t n hp hu := h.able hp hu
  unable t n s' hp hu hs := h.unable hp hu hs
  returned := h.regs.returned
  holds t n hp hout := by
    have hth := h.thread t
    rw [hp] at hth
    exact ⟨hth.1, hth.2.holder hout⟩
  goes t hd hf := h.goes hd hf

end CondInv

/-- `lock_acquire` by `t`, from the call to its end; the lock is free. -/
def acquireSteps (t : Tid) : List (MonEvent CondCall Empty) :=
  [.lock (.call t .acquire), .lock (.go t), .lock (.go t)]

/-- Thread 1 registers, releases the lock and sleeps; thread 3 registers and releases the lock. -/
def twoWaits : List (MonEvent CondCall Empty) :=
  acquireSteps 1 ++ [.enter 1 .wait, .go 1, .go 1, .lock (.go 1), .lock (.go 1), .go 1] ++
    acquireSteps 3 ++ [.enter 3 .wait, .go 3, .go 3, .lock (.go 3), .lock (.go 3)]

/-- Thread 2 signals all, from the call to its end. -/
def broadcastSteps : List (MonEvent CondCall Empty) :=
  acquireSteps 2 ++ [.enter 2 .broadcast, .go 2, .go 2, .go 2, .go 2, .go 2, .go 2, .go 2]

end Pintos
