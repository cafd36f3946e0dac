/-
  Subject:   Who is blocked, and on which lock.

  `Sleepers`: a blocked thread stands at the `sema_down` of the lock it is blocked on and is among
  its waiters, if the lock's thread is alive; the waiters of a live thread's lock are blocked on it;
  there is at most one of them, and none when the semaphore's value is positive. With `tidy` it says
  in addition that nobody is blocked on a lock in a freed page.

  Every step is one of four kinds: nobody falls asleep or wakes, the thread blocks, it blocks on what it
  takes for a lock, or a waiter of a lock is woken. That a second waiter cannot come is a fact of the lock
  protocol.
-/
import Pintos.Threads.Semaphore
import Pintos.Userprog.ProcessLocks

namespace Pintos

/-- The lock whose `sema_down` the thread `self` is at. -/
def PC.sleepsOn (self : Tid) : PC → Option (Tid × LockName)
  | .execExit c .down => some (c, .exit)
  | .execExec c .down => some (c, .exec)
  | .waitWait c .down => some (c, .wait)
  | .waitExit2 c _ .down => some (c, .exit2)
  | .exitExit .down => some (self, .exit)
  | _ => none

structure Sleepers (tidy : Prop) (s : PSys) : Prop where
  blocked : ∀ q c l, (s.proc q).blockedOn = some (c, l) →
    (tidy → (s.proc c).life = .alive) ∧
    ((s.proc c).life = .alive → q ∈ ((s.proc c).lock l).waiters) ∧
    (s.proc q).pc.sleepsOn q = some (c, l)
  waiting : ∀ c l q, (s.proc c).life = .alive → q ∈ ((s.proc c).lock l).waiters →
    (s.proc q).blockedOn = some (c, l)
  one : ∀ c l, (s.proc c).life = .alive → ((s.proc c).lock l).waiters.length ≤ 1
  free : ∀ c l, (s.proc c).life = .alive → ((s.proc c).lock l).value ≠ 0 →
    ((s.proc c).lock l).waiters = []

variable {tidy : Prop}

/-! ## 1. Nobody falls asleep or wakes -/

/-- Nobody falls asleep or wakes, lives and dies, and no semaphore's value rises. -/
structure Undisturbed (s s' : PSys) : Prop where
  blocked : ∀ u, (s'.proc u).blockedOn = (s.proc u).blockedOn
  waiters : ∀ c l, ((s'.proc c).lock l).waiters = ((s.proc c).lock l).waiters
  life : ∀ u, (s'.proc u).life = (s.proc u).life
  value : ∀ c l, ((s'.proc c).lock l).value ≤ ((s.proc c).lock l).value

variable {f f' : Proc → Proc} {a : Acq} {r : Rel} {pc : PC}

namespace Undisturbed

variable {s s' s'' : PSys}

theorem trans (h : Undisturbed s s') (h' : Undisturbed s' s'') : Undisturbed s s'' :=
  ⟨fun u => (h'.blocked u).trans (h.blocked u), fun c l => (h'.waiters c l).trans (h.waiters c l),
    fun u => (h'.life u).trans (h.life u), fun c l => Nat.le_trans (h'.value c l) (h.value c l)⟩

theorem modify (s : PSys) (c : Tid) (hb : (f (s.proc c)).blockedOn = (s.proc c).blockedOn)
    (hw : ∀ l, ((f (s.proc c)).lock l).waiters = ((s.proc c).lock l).waiters)
    (hl : (f (s.proc c)).life = (s.proc c).life)
    (hv : ∀ l, ((f (s.proc c)).lock l).value ≤ ((s.proc c).lock l).value) :
    Undisturbed s (s.modify c f) := by
  refine ⟨fun u => ?_, fun d l => ?_, fun u => ?_, fun d l => ?_⟩ <;> rw [PSys.proc_modify] <;> split
  · rename_i hu
    rw [hu, hb]
  · rfl
  · rename_i hu
    rw [hu, hw]
  · rfl
  · rename_i hu
    rw [hu, hl]
  · rfl
  · rename_i hu
    rw [hu]
    exact hv l
  · exact Nat.le_refl _

theorem store (s : PSys) (c : Tid) (hb : ∀ x, (f x).blockedOn = x.blockedOn)
    (hl : ∀ x, (f x).lock = x.lock) (hlife : ∀ x, (f x).life = x.life) :
    Undisturbed s (s.modify c f) :=
  modify s c (hb _) (fun l => by rw [hl]) (hlife _) fun l => Nat.le_of_eq (by rw [hl])

theorem goto (s : PSys) (t : Tid) (pc : PC) : Undisturbed s (s.goto t pc) := by
  refine store s t ?_ ?_ ?_ <;> exact fun _ => rfl

theorem touch (s : PSys) (c : Tid) : Undisturbed s (s.touch c) := by
  refine ⟨fun u => ?_, fun d l => ?_, fun u => ?_, fun d l => ?_⟩ <;> simp

theorem crash (s : PSys) (e : Crash) (t : Tid) : Undisturbed s (s.crash e t) :=
  ⟨fun _ => rfl, fun _ _ => rfl, fun _ => rfl, fun _ _ => Nat.le_refl _⟩

theorem setLock (s : PSys) (c : Tid) (l : LockName) {x : PLock}
    (hw : x.waiters = ((s.proc c).lock l).waiters) (hv : x.value ≤ ((s.proc c).lock l).value) :
    Undisturbed s (s.setLock c l x) := by
  refine modify s c rfl (fun l' => ?_) rfl fun l' => ?_
  · by_cases h : l' = l
    · subst h
      simpa using hw
    · simp [h]
  · by_cases h : l' = l
    · subst h
      simpa using hv
    · simp [h]

end Undisturbed

variable {s s' : PSys} {c p t : Tid} {l : LockName}

theorem Sleepers.keep (h : Sleepers tidy s) (hu : Undisturbed s s')
    (ht : (s.proc t).blockedOn = none) (hpc : ∀ q, q ≠ t → (s'.proc q).pc = (s.proc q).pc) :
    Sleepers tidy s' := by
  refine ⟨fun q c l hb => ?_, fun c l q hc hq => ?_, fun c l hc => ?_, fun c l hc hv => ?_⟩
  · rw [hu.blocked] at hb
    have hqt : q ≠ t := by
      rintro rfl
      rw [ht] at hb
      cases hb
    rw [hu.life, hu.waiters, hpc q hqt]
    exact h.blocked q c l hb
  · rw [hu.life] at hc
    rw [hu.waiters] at hq
    rw [hu.blocked]
    exact h.waiting c l q hc hq
  · rw [hu.life] at hc
    rw [hu.waiters]
    exact h.one c l hc
  · rw [hu.life] at hc
    rw [hu.waiters]
    have hle := hu.value c l
    exact h.free c l hc (by omega)

/-! ## 2. Falling asleep -/

theorem setLock_at (s : PSys) (c : Tid) (l : LockName) (x : PLock) (d : Tid) (l' : LockName) :
    ((s.setLock c l x).proc d).lock l' = if d = c ∧ l' = l then x else (s.proc d).lock l' := by
  by_cases hd : d = c
  · by_cases hl : l' = l
    · simp [PSys.setLock, hd, hl]
    · simp [PSys.setLock, hd, hl]
  · simp [PSys.setLock, hd]

theorem setLock_blocked (s : PSys) (c : Tid) (l : LockName) (x : PLock) (u : Tid) :
    ((s.setLock c l x).proc u).blockedOn = (s.proc u).blockedOn := by
  refine modify_field Proc.blockedOn s c ?_ u
  exact fun _ => rfl

theorem Sleepers.blocks (h : Sleepers tidy s) (hc : (s.proc c).life = .alive)
    (hv : ((s.proc c).lock l).value = 0) (hw : ((s.proc c).lock l).waiters = [])
    (ht : (s.proc t).blockedOn = none) (hpc : (s.proc t).pc.sleepsOn t = some (c, l)) :
    Sleepers tidy ((s.setLock c l { (s.proc c).lock l with
      waiters := ((s.proc c).lock l).waiters ++ [t] }).block t c l) := by
  generalize hs' : PSys.block _ _ _ _ = s'
  have hstill : Still s s' := hs' ▸ (Still.setLock s c l _).trans (.block _ t c l)
  have hlife (u) : (s'.proc u).life = (s.proc u).life := data_life (hstill.data u)
  have hblocked (u) : (s'.proc u).blockedOn = if u = t then some (c, l) else (s.proc u).blockedOn := by
    rw [← hs', PSys.block, PSys.proc_modify]
    split
    · rfl
    · exact setLock_blocked s c l _ u
  have hlock (d l') : (s'.proc d).lock l' = if d = c ∧ l' = l then
      { (s.proc c).lock l with waiters := [t] } else (s.proc d).lock l' := by
    rw [← hs', block_lock, setLock_at, hw]
    rfl
  refine ⟨fun q d l' hb => ?_, fun d l' q hd hq => ?_, fun d l' hd => ?_, fun d l' hd hv' => ?_⟩
  · rw [hlife, hstill.pc, hlock]
    rw [hblocked] at hb
    split at hb
    · rename_i hqt
      cases hb
      rw [if_pos ⟨rfl, rfl⟩, hqt]
      exact ⟨fun _ => hc, fun _ => List.mem_singleton.mpr rfl, hpc⟩
    · obtain ⟨hd, hmem, hat⟩ := h.blocked q d l' hb
      rw [if_neg]
      · exact ⟨hd, hmem, hat⟩
      · rintro ⟨rfl, rfl⟩
        have hq := hmem hc
        rw [hw] at hq
        cases hq
  · rw [hlife] at hd
    rw [hlock] at hq
    rw [hblocked]
    split at hq
    · rename_i heq
      rw [List.mem_singleton.mp hq, if_pos rfl, heq.1, heq.2]
    · have hb := h.waiting d l' q hd hq
      rw [if_neg]
      · exact hb
      · rintro rfl
        rw [ht] at hb
        cases hb
  · rw [hlife] at hd
    rw [hlock]
    split
    · simp
    · exact h.one d l' hd
  · rw [hlife] at hd
    rw [hlock] at hv' ⊢
    split at hv'
    · exact absurd hv hv'
    · rename_i hne
      rw [if_neg hne]
      exact h.free d l' hd hv'

/-- A thread that takes a freed page for a lock and goes to sleep on it. -/
theorem Sleepers.strands (h : Sleepers tidy s) (hc : (s.proc c).life ≠ .alive) (hnot : ¬tidy)
    (ht : (s.proc t).blockedOn = none) (hpc : (s.proc t).pc.sleepsOn t = some (c, l)) :
    Sleepers tidy ((s.touch c).block t c l) := by
  generalize hs' : PSys.block _ _ _ _ = s'
  have hstill : Still s s' := hs' ▸ (Still.touch s c).trans (.block _ t c l)
  have hlife (u) : (s'.proc u).life = (s.proc u).life := data_life (hstill.data u)
  have hblocked (u) : (s'.proc u).blockedOn = if u = t then some (c, l) else (s.proc u).blockedOn := by
    rw [← hs', PSys.block, PSys.proc_modify]
    split
    · rfl
    · rw [PSys.proc_touch]
  have hlock (d l') : (s'.proc d).lock l' = (s.proc d).lock l' := by
    rw [← hs', block_lock, PSys.proc_touch]
  refine ⟨fun q d l' hb => ?_, fun d l' q hd hq => ?_, fun d l' hd => ?_, fun d l' hd hv => ?_⟩
  · rw [hlife, hstill.pc, hlock]
    rw [hblocked] at hb
    split at hb
    · rename_i hqt
      cases hb
      rw [hqt]
      exact ⟨fun htidy => absurd htidy hnot, fun ha => absurd ha hc, hpc⟩
    · exact h.blocked q d l' hb
  · rw [hlife] at hd
    rw [hlock] at hq
    have hb := h.waiting d l' q hd hq
    rw [hblocked, if_neg]
    · exact hb
    · rintro rfl
      rw [ht] at hb
      cases hb
  · rw [hlife] at hd
    rw [hlock]
    exact h.one d l' hd
  · rw [hlife] at hd
    rw [hlock] at hv ⊢
    exact h.free d l' hd hv

/-! ## 3. Waking -/

/-- The waiters that `sema_up` leaves. -/
def PLock.rest (x : PLock) (g : ℕ) : List Tid := (x.found g).elim x.waiters x.waiters.erase

theorem PLock.found_one {x : PLock} (h : x.waiters.length ≤ 1) (g : ℕ) :
    x.rest g = [] ∧ ∀ q, q ∈ x.waiters ↔ x.found g = some q := by
  unfold PLock.rest PLock.found
  cases hw : x.waiters with
  | nil => exact ⟨rfl, fun q => iff_of_false List.not_mem_nil nofun⟩
  | cons w ws =>
    obtain rfl : ws = [] := by
      rw [hw, List.length_cons] at h
      exact List.length_eq_zero_iff.mp (by omega)
    rw [List.length_singleton, Nat.mod_one]
    exact ⟨List.erase_cons_head .., fun q => by simp [eq_comm]⟩

theorem plockUp_at (s : PSys) (c : Tid) (l : LockName) (g : ℕ) (d : Tid) (l' : LockName) :
    ((plockUp s c l g).proc d).lock l' = if d = c ∧ l' = l then
      ⟨((s.proc c).lock l).value + 1, ((s.proc c).lock l).holder, ((s.proc c).lock l).rest g⟩
      else (s.proc d).lock l' := by
  unfold plockUp PLock.rest
  dsimp only
  split
  · rename_i hw
    rw [setLock_at, hw]
    rfl
  · rename_i w hw
    rw [unblock_lock, setLock_at, hw]
    rfl

theorem plockUp_blocked (s : PSys) (c : Tid) (l : LockName) (g : ℕ) (u : Tid) :
    ((plockUp s c l g).proc u).blockedOn =
      if ((s.proc c).lock l).found g = some u then none else (s.proc u).blockedOn := by
  unfold plockUp
  dsimp only
  split
  · rename_i hw
    rw [setLock_blocked, hw]
    rfl
  · rename_i w hw
    rw [hw, PSys.unblock, PSys.proc_modify]
    by_cases hu : u = w
    · simp [hu]
    · rw [if_neg hu, if_neg (by simpa using Ne.symm hu)]
      exact setLock_blocked s c l _ u

/-- A lock of a process as the semaphore of Semaphore.lean, among threads of any priorities. -/
def PSys.semaView (s : PSys) (c : Tid) (l : LockName) (priority : Tid → Int) (w : Option Tid) :
    SemaSys :=
  ⟨⟨((s.proc c).lock l).value, ((s.proc c).lock l).waiters⟩, priority,
    fun t => if (s.proc t).blockedOn = none then .ready else .blocked, w.toList, 0, 0⟩

theorem PLock.found_maxElem (x : PLock) (priority : Tid → Int) :
    ∃ g, x.found g = maxElem priority x.waiters := by
  unfold PLock.found
  cases hm : maxElem priority x.waiters with
  | none =>
    rw [maxElem_eq_none hm]
    exact ⟨0, rfl⟩
  | some w =>
    obtain ⟨g, hg, hw⟩ := List.mem_iff_getElem.mp (maxElem_mem hm)
    refine ⟨g, ?_⟩
    rw [Nat.mod_eq_of_lt hg, List.getElem?_eq_getElem hg, hw]

/-- **`plockUp` does what `sema_up` does**, for every assignment of priorities. -/
theorem plockUp_semaUp {s : PSys} {c : Tid} {l : LockName} (priority : Tid → Int)
    (hw : ∀ w ∈ ((s.proc c).lock l).waiters, (s.proc w).blockedOn ≠ none)
    (hv : ((s.proc c).lock l).value + 1 < 2 ^ 32) :
    ∃ g, (s.semaView c l priority none).semaUp = some
      ((plockUp s c l g).semaView c l priority (((s.proc c).lock l).found g)) := by
  obtain ⟨g, hg⟩ := ((s.proc c).lock l).found_maxElem priority
  refine ⟨g, ?_⟩
  have hlock : ((plockUp s c l g).proc c).lock l = ⟨((s.proc c).lock l).value + 1,
      ((s.proc c).lock l).holder, ((s.proc c).lock l).rest g⟩ := by
    rw [plockUp_at, if_pos ⟨rfl, rfl⟩]
  unfold SemaSys.semaUp PSys.semaView
  simp only [hlock, plockUp_blocked, PLock.rest, ← hg]
  cases hf : ((s.proc c).lock l).found g with
  | none => simpa [SemaSys.give, Semaphore.give] using hv
  | some w =>
    have hblocked := hw w (maxElem_mem (hg.symm.trans hf))
    have hst : (fun t => if (if some w = some t then none else (s.proc t).blockedOn) = none then
        ThreadStatus.ready else .blocked) = Function.update
          (fun t => if (s.proc t).blockedOn = none then .ready else .blocked) w .ready := by
      funext t
      by_cases ht : t = w
      · simp [ht]
      · simp [ht, Ne.symm ht]
    simp only [hst, SemaSys.wake, if_neg hblocked, if_true, Option.map_some, SemaSys.give,
      Semaphore.give, Nat.mod_eq_of_lt hv]
    rfl

/-- **`sema_up`** on a lock of a live thread empties its waiters. -/
theorem Sleepers.wakes (h : Sleepers tidy s) (hc : (s.proc c).life = .alive) (g : ℕ) :
    Sleepers tidy (plockUp s c l g) ∧ (((plockUp s c l g).proc c).lock l).waiters = [] := by
  have hstill := Still.plockUp s c l g
  have hlife (u) : ((plockUp s c l g).proc u).life = (s.proc u).life := data_life (hstill.data u)
  obtain ⟨hrest, hfound⟩ := PLock.found_one (h.one c l hc) g
  refine ⟨⟨fun q d l' hb => ?_, fun d l' q hd hq => ?_, fun d l' hd => ?_, fun d l' hd hv => ?_⟩, ?_⟩
  · rw [plockUp_blocked] at hb
    split at hb
    · cases hb
    · rename_i hne
      obtain ⟨hd, hmem, hat⟩ := h.blocked q d l' hb
      rw [hlife, hstill.pc, plockUp_at]
      rw [if_neg]
      · exact ⟨hd, hmem, hat⟩
      · rintro ⟨rfl, rfl⟩
        exact hne ((hfound q).mp (hmem hc))
  · rw [hlife] at hd
    rw [plockUp_at] at hq
    split at hq
    · simp only [hrest] at hq
      cases hq
    · rename_i hne
      have hb := h.waiting d l' q hd hq
      rw [plockUp_blocked, if_neg]
      · exact hb
      · intro hh
        -- whoever is found is blocked on this lock and no other
        rw [h.waiting c l q hc ((hfound q).mpr hh)] at hb
        cases hb
        exact hne ⟨rfl, rfl⟩
  · rw [hlife] at hd
    rw [plockUp_at]
    split
    · simp [hrest]
    · exact h.one d l' hd
  · rw [hlife] at hd
    rw [plockUp_at] at hv ⊢
    split at hv
    · rename_i heq
      rw [if_pos heq]
      exact hrest
    · rename_i hne
      rw [if_neg hne]
      exact h.free d l' hd hv
  · rw [plockUp_at, if_pos ⟨rfl, rfl⟩]
    exact hrest

/-! ## 4. Who sleeps where -/

theorem sleepsOn_cases (h : pc.sleepsOn t = some (c, l)) :
    (pc = .exitExit .down ∧ c = t ∧ l = .exit) ∨ (pc = .execExit c .down ∧ l = .exit) ∨
      (pc.target = some c ∧ l ≠ .exit) := by
  unfold PC.sleepsOn at h
  split at h <;> cases h
  · exact .inr (.inl ⟨rfl, rfl⟩)
  · exact .inr (.inr ⟨rfl, by simp⟩)
  · exact .inr (.inr ⟨rfl, by simp⟩)
  · exact .inr (.inr ⟨rfl, by simp⟩)
  · exact .inl ⟨rfl, rfl, rfl⟩

theorem sleepsOn_exec (h : pc.sleepsOn t = some (c, .exec)) : pc = .execExec c .down := by
  unfold PC.sleepsOn at h
  split at h <;> cases h
  rfl

theorem sleepsOn_wait (h : pc.sleepsOn t = some (c, .wait)) : pc = .waitWait c .down := by
  unfold PC.sleepsOn at h
  split at h <;> cases h
  rfl

theorem exit_free (hl : Locks s) (hc : (s.proc c).life = .alive)
    (hpc : (s.proc p).pc = .execExit c .down) : ((s.proc c).lock .exit).value = 1 := by
  have hp := hl.targets p c (by rw [hpc]; rfl)
  have he := (hl.pairs c p hc hp).exit
  rw [hpc, PC.towards_of_target rfl] at he
  cases ho : (s.proc c).pc.ownExit <;> rw [ho] at he
  · exact (congrArg Prod.fst (Option.some.inj he)).symm
  · cases he
  · cases he

/-- **A second waiter does not come**: who is about to block on a lock finds no waiters. -/
theorem sleepers_alone (hl : Locks s) (h : Sleepers tidy s) (hc : (s.proc c).life = .alive)
    (hv : ((s.proc c).lock l).value = 0) (ht : (s.proc t).blockedOn = none)
    (hpc : (s.proc t).pc.sleepsOn t = some (c, l)) : ((s.proc c).lock l).waiters = [] := by
  by_contra hne
  obtain ⟨q, hq⟩ := List.exists_mem_of_ne_nil _ hne
  have hb := h.waiting c l q hc hq
  have hqt : q ≠ t := by
    rintro rfl
    rw [ht] at hb
    cases hb
  rcases sleepsOn_cases hpc with ⟨_, rfl, rfl⟩ | ⟨htp, rfl⟩ | ⟨htt, hlt⟩
  · rcases sleepsOn_cases (h.blocked q c _ hb).2.2 with ⟨_, rfl, _⟩ | ⟨hqp, _⟩ | ⟨_, hle⟩
    · exact hqt rfl
    · rw [exit_free hl hc hqp] at hv
      cases hv
    · exact hle rfl
  · rw [exit_free hl hc htp] at hv
    cases hv
  · rcases sleepsOn_cases (h.blocked q c l hb).2.2 with ⟨_, _, hle⟩ | ⟨_, hle⟩ | ⟨hqq, _⟩
    · exact hlt hle
    · exact hlt hle
    · have hpq := (hl.targets q c hqq).symm.trans (hl.targets t c htt)
      exact hqt (Option.some.inj hpq)

/-- **Nobody sleeps on the locks of a dying thread**, `lock_exit2` apart. -/
theorem sleepers_dying (hl : Locks s) (h : Sleepers tidy s) (halive : (s.proc t).life = .alive)
    (ht : (s.proc t).blockedOn = none) (hpc : (s.proc t).pc = .die ∨ (s.proc t).pc = .dieSoon)
    (hne : l ≠ .exit2) : ((s.proc t).lock l).waiters = [] := by
  by_contra hw
  obtain ⟨q, hq⟩ := List.exists_mem_of_ne_nil _ hw
  have hb := h.waiting t l q halive hq
  have hat := (h.blocked q t l hb).2.2
  have hval : ((s.proc t).lock l).value = 0 := by
    by_contra hv
    exact hw (h.free t l halive hv)
  rcases sleepsOn_cases hat with ⟨_, rfl, _⟩ | ⟨hqp, rfl⟩ | ⟨hqq, hle⟩
  · rw [ht] at hb
    cases hb
  · rw [exit_free hl halive hqp] at hval
    cases hval
  · -- a dying thread has released `lock_exec` and `lock_wait`, and the sleeper has not taken them
    have hpair := hl.pairs t q halive (hl.targets q t hqq)
    rw [PC.towards_of_target hqq] at hpair
    cases l with
    | exec =>
      have he := hpair.exec
      rw [sleepsOn_exec hat] at he
      rcases hpc with hpc | hpc <;> rw [hpc] at he <;>
        have hone := congrArg Prod.fst (Option.some.inj he) <;> exact absurd (hone.trans hval) (by simp)
    | wait =>
      have he := hpair.wait
      rw [sleepsOn_wait hat] at he
      rcases hpc with hpc | hpc <;> rw [hpc] at he <;>
        have hone := congrArg Prod.fst (Option.some.inj he) <;> exact absurd (hone.trans hval) (by simp)
    | exit => exact hle rfl
    | exit2 => exact hne rfl

/-- **A death**: the sleeper on `lock_exit2`, if there is one, wakes. -/
theorem Sleepers.dies (h : Sleepers tidy s) (hl : Locks s) (halive : (s.proc t).life = .alive)
    (ht : (s.proc t).blockedOn = none) (hpc : (s.proc t).pc = .die ∨ (s.proc t).pc = .dieSoon) :
    Sleepers tidy (dieStep s t g) := by
  unfold dieStep
  dsimp only
  split
  · generalize hs1 : s.setLock t .exit2 _ = s₁
    have hu : Undisturbed s s₁ := by
      rw [← hs1]
      exact .setLock s t .exit2 rfl (Nat.le_refl _)
    have hstill : Still s s₁ := hs1 ▸ Still.setLock s t _ _
    have h1 : Sleepers tidy s₁ := h.keep hu ht fun q _ => hstill.pc q
    have halive1 : (s₁.proc t).life = .alive := (hu.life t).trans halive
    obtain ⟨h2, hempty⟩ := h1.wakes (l := .exit2) halive1 g
    have hup := Still.plockUp s₁ t .exit2 g
    have hnone : ∀ l, (((plockUp s₁ t .exit2 g).proc t).lock l).waiters = [] := by
      intro l
      by_cases hx : l = .exit2
      · rw [hx]
        exact hempty
      · rw [plockUp_lock s₁ t hx, hu.waiters]
        exact sleepers_dying hl h halive ht hpc hx
    -- so nobody is blocked on a lock of the thread any more
    have hgone : ∀ q l, ((plockUp s₁ t .exit2 g).proc q).blockedOn ≠ some (t, l) := by
      intro q l hb
      have hmem := (h2.blocked q t l hb).2.1 ((data_life (hup.data t)).trans halive1)
      rw [hnone l] at hmem
      cases hmem
    have htb : ((plockUp s₁ t .exit2 g).proc t).blockedOn = none := by
      rw [plockUp_blocked]
      split
      · rfl
      · exact (hu.blocked t).trans ht
    generalize plockUp s₁ t .exit2 g = s₂ at h2 hnone hgone htb
    have hother : ∀ u, u ≠ t → (s₂.modify t fun y => { y with life := .freed, pc := .dead }).proc u =
        s₂.proc u := by
      intro u hu
      simp [hu]
    have hself : (s₂.modify t fun y => { y with life := .freed, pc := .dead }).proc t =
        { s₂.proc t with life := .freed, pc := .dead } := by
      simp
    refine ⟨fun q d l hb => ?_, fun d l q hd hq => ?_, fun d l hd => ?_, fun d l hd hv => ?_⟩
    · have hqt : q ≠ t := by
        rintro rfl
        rw [hself] at hb
        exact absurd (htb.symm.trans hb) (by simp)
      rw [hother q hqt] at hb
      have hdt : d ≠ t := by
        rintro rfl
        exact hgone q l hb
      rw [hother q hqt, hother d hdt]
      exact h2.blocked q d l hb
    · have hdt : d ≠ t := by
        rintro rfl
        rw [hself] at hd
        cases hd
      rw [hother d hdt] at hd hq
      have hb := h2.waiting d l q hd hq
      have hqt : q ≠ t := by
        rintro rfl
        rw [htb] at hb
        cases hb
      rw [hother q hqt]
      exact hb
    · have hdt : d ≠ t := by
        rintro rfl
        rw [hself] at hd
        cases hd
      rw [hother d hdt] at hd ⊢
      exact h2.one d l hd
    · have hdt : d ≠ t := by
        rintro rfl
        rw [hself] at hd
        cases hd
      rw [hother d hdt] at hd hv ⊢
      exact h2.free d l hd hv
  · exact h.keep (.crash s _ t) ht fun _ _ => rfl

/-! ## 5. Every step -/

section Steps

variable {s s' : PSys} {t c : Tid} {l : LockName} {g : ℕ} {waits : Prop} {o : Option Tid}
  (h : Sleepers tidy s) (ht : (s.proc t).blockedOn = none)
include h ht

theorem Sleepers.goto (pc : PC) : Sleepers tidy (s.goto t pc) :=
  h.keep (.goto s t pc) ht fun _ hq => ((Still.refl s).goto t pc).there hq

theorem Sleepers.stores (c : Tid)
    (hf : ∀ x, (f x).blockedOn = x.blockedOn ∧ (f x).lock = x.lock ∧ (f x).life = x.life ∧
      (f x).pc = x.pc)
    (hf' : ∀ x, (f' x).blockedOn = x.blockedOn ∧ (f' x).lock = x.lock ∧ (f' x).life = x.life) :
    Sleepers tidy ((s.modify c f).modify t f') := by
  refine h.keep (t := t) (Undisturbed.trans (.store s c ?_ ?_ ?_) (.store _ t ?_ ?_ ?_)) ht ?_
  · exact fun x => (hf x).1
  · exact fun x => (hf x).2.1
  · exact fun x => (hf x).2.2.1
  · exact fun x => (hf' x).1
  · exact fun x => (hf' x).2.1
  · exact fun x => (hf' x).2.2
  · intro q hq
    rw [PSys.proc_modify, if_neg hq]
    exact modify_field Proc.pc s c (fun x => (hf x).2.2.2) q

theorem Sleepers.returnExec (c : Tid) (r : Int) : Sleepers tidy (returnExec s t c r) := by
  refine h.stores ht c ?_ ?_
  · exact fun _ => ⟨rfl, rfl, rfl, rfl⟩
  · exact fun _ => ⟨rfl, rfl, rfl⟩

theorem Sleepers.returnWait (tid r : Int) : Sleepers tidy (returnWait s t tid r) := by
  refine h.stores ht tid.toNat ?_ ?_
  · intro x
    split <;> exact ⟨rfl, rfl, rfl, rfl⟩
  · exact fun _ => ⟨rfl, rfl, rfl⟩

theorem Sleepers.touch (d : Tid) :
    Sleepers tidy (s.touch d) ∧ ((s.touch d).proc t).blockedOn = none :=
  ⟨h.keep (.touch s d) ht fun q _ => by rw [PSys.proc_touch], by rw [PSys.proc_touch]; exact ht⟩

/-- **A step of a lock operation.** -/
theorem Sleepers.lockMove (hl : Locks s) (hm : LockMove s t c l g waits o pc s')
    (hat : waits → (s.proc t).pc.sleepsOn t = some (c, l))
    (hg : tidy → ∀ x ∈ (s.proc t).pc.sleepsOn t, s.onAllList x.1 = false → g ≠ 0) :
    Sleepers tidy s' := by
  have hthere : ∀ q, q ≠ t → (s'.proc q).pc = (s.proc q).pc := fun q hq => hm.toGoes.there hq
  have base : ∀ {s₁}, s₁ = s ∨ s₁ = s.touch c → Sleepers tidy s₁ ∧ (s₁.proc t).blockedOn = none := by
    rintro _ (rfl | rfl)
    · exact ⟨h, ht⟩
    · exact h.touch ht c
  cases hm with
  | fails hs => exact (base hs).1.keep (.crash _ _ t) (base hs).2 fun _ _ => rfl
  | goes hs => exact (base hs).1.goto (base hs).2 _
  | sets _ hw hv => exact h.keep (Undisturbed.trans (.setLock s c l hw hv) (.goto _ t _)) ht hthere
  | blocks hwaits hon hv =>
    have hc := (s.onAllList_iff c).mp hon
    exact h.blocks hc hv (sleepers_alone hl h hc hv ht (hat hwaits)) ht (hat hwaits)
  | strands hwaits hoff hz =>
    refine h.strands (fun hc => ?_) (fun htidy => ?_) ht (hat hwaits)
    · rw [(s.onAllList_iff c).mpr hc] at hoff
      cases hoff
    · exact hg htidy (c, l) (hat hwaits) hoff hz
  | ups hon =>
    refine (h.wakes ((s.onAllList_iff c).mp hon) g).1.goto ?_ _
    rw [plockUp_blocked]
    split
    · rfl
    · exact ht

theorem Sleepers.born (hl : Locks s) (halive : (s.proc t).life = .alive) :
    Sleepers tidy (s.born t) := by
  have hlt : t < s.nextTid := lt_nextTid (fun u hu => (hl.fresh u hu).1) halive
  have hold : ∀ u, u ≠ s.nextTid → ((s.born t).proc u).blockedOn = (s.proc u).blockedOn ∧
      ((s.born t).proc u).lock = (s.proc u).lock ∧
      ((s.born t).proc u).life = (s.proc u).life := by
    intro u hu
    by_cases hut : u = t
    · rw [hut, born_parent hlt]
      exact ⟨rfl, rfl, rfl⟩
    · rw [born_other hut hu]
      exact ⟨rfl, rfl, rfl⟩
  have hnew := born_child hlt
  have hnone : ∀ l, ((newProc s.nextTid (some t) .load).lock l).waiters = [] := by
    intro l
    cases l <;> rfl
  refine ⟨fun q d l hb => ?_, fun d l q hd hq => ?_, fun d l hd => ?_, fun d l hd hv => ?_⟩
  · by_cases hq : q = s.nextTid
    · rw [hq, hnew] at hb
      cases hb
    · rw [(hold q hq).1] at hb
      obtain ⟨hd, hmem, hat⟩ := h.blocked q d l hb
      have hqt : q ≠ t := by
        rintro rfl
        rw [ht] at hb
        cases hb
      have hdn : d ≠ s.nextTid := by
        rintro rfl
        have hnop := (hl.fresh _ (Nat.le_refl s.nextTid)).2
        rcases sleepsOn_cases hat with ⟨_, hdq, _⟩ | ⟨hqp, _⟩ | ⟨hqq, _⟩
        · exact hq hdq.symm
        · rw [hl.targets q _ (by rw [hqp]; rfl)] at hnop
          cases hnop
        · rw [hl.targets q _ hqq] at hnop
          cases hnop
      rw [(hold d hdn).2.1, (hold d hdn).2.2, born_other hqt hq]
      exact ⟨hd, hmem, hat⟩
  · by_cases hdn : d = s.nextTid
    · rw [hdn, hnew, hnone] at hq
      cases hq
    · rw [(hold d hdn).2.2] at hd
      rw [(hold d hdn).2.1] at hq
      have hb := h.waiting d l q hd hq
      by_cases hqn : q = s.nextTid
      · -- a thread not yet born stands at no `sema_down`
        have htarget : (s.proc q).pc.target = some d := by
          rcases sleepsOn_cases (h.blocked q d l hb).2.2 with ⟨_, hdq, _⟩ | ⟨hqp, _⟩ | ⟨hqq, _⟩
          · exact absurd (hdq.trans hqn) hdn
          · rw [hqp]
            rfl
          · exact hqq
        have hqd : q < d := hl.older d q (hl.targets q d htarget)
        have hdl : d < s.nextTid := lt_nextTid (fun u hu => (hl.fresh u hu).1) hd
        exact absurd (hqn ▸ hqd) (Nat.lt_asymm hdl)
      · rw [(hold q hqn).1]
        exact hb
  · by_cases hdn : d = s.nextTid
    · rw [hdn, hnew, hnone]
      exact Nat.zero_le _
    · rw [(hold d hdn).2.2] at hd
      rw [(hold d hdn).2.1]
      exact h.one d l hd
  · by_cases hdn : d = s.nextTid
    · rw [hdn, hnew, hnone]
    · rw [(hold d hdn).2.2] at hd
      rw [(hold d hdn).2.1] at hv ⊢
      exact h.free d l hd hv

end Steps

/-- **What `sema_down` may read** in a freed page: not the value 0, on which it would go to sleep
    there. -/
def WakesOnGarbage (s : PSys) : PEvent → Prop
  | .run t garbage =>
    ∀ x ∈ (s.proc t).pc.sleepsOn t, s.onAllList x.1 = false → garbage ≠ 0
  | _ => True

instance (s : PSys) : (e : PEvent) → Decidable (WakesOnGarbage s e)
  | .run t garbage => inferInstanceAs
      (Decidable (∀ x ∈ (s.proc t).pc.sleepsOn t, s.onAllList x.1 = false → garbage ≠ 0))
  | .execute _ _ | .wait _ _ | .exit _ _ | .terminate _ | .kill _ _ | .create _ _ | .load _ _ =>
    inferInstanceAs (Decidable True)

theorem runStep_asleep {g : ℕ} (hl : Locks s) (h : Sleepers tidy s) (hs : runStep s t g = some s')
    (halive : (s.proc t).life = .alive) (ht : (s.proc t).blockedOn = none)
    (hg : tidy → WakesOnGarbage s (.run t g)) : Sleepers tidy s' := by
  unfold runStep at hs
  generalize hpc : (s.proc t).pc = pc at hs
  cases pc with
  | kernel | user | create | load | dead => cases hs
  | soonLookup c | execTest2 c | statusLookup c =>
    cases hs
    split
    · exact h.goto ht _
    · exact h.keep (.crash s _ t) ht fun _ _ => rfl
  | soonWrite c =>
    cases hs
    split
    · refine h.stores ht c ?_ ?_
      · exact fun _ => ⟨rfl, rfl, rfl, rfl⟩
      · exact fun _ => ⟨rfl, rfl, rfl⟩
    · exact (h.touch ht c).1.goto (h.touch ht c).2 _
  | execTest c =>
    cases hs
    split
    · exact h.goto ht _
    · exact h.returnExec ht c _
  | execRead c =>
    cases hs
    exact (h.touch ht c).1.returnExec (h.touch ht c).2 c _
  | waitGuard tid =>
    cases hs
    split
    · exact h.returnWait ht tid _
    · exact h.goto ht _
  | statusRead c =>
    cases hs
    exact (h.touch ht c).1.goto (h.touch ht c).2 _
  | waitReturn c status =>
    cases hs
    exact h.returnWait ht c _
  | failStatus | failSoon =>
    cases hs
    refine h.stores ht t ?_ ?_
    · exact fun _ => ⟨rfl, rfl, rfl, rfl⟩
    · exact fun _ => ⟨rfl, rfl, rfl⟩
  | execExit c a | execExec c a | waitWait c a | waitExit2 c status a | exitExit a =>
    cases hs
    obtain ⟨_, _, hm⟩ := acquireStep_moves s t _ _ g _ hpc
    exact h.lockMove ht hl hm (fun ha => by rw [hpc, ha]; rfl) hg
  | waitExit c status r | startRel r | failRel r | exitExec r | exitWait r =>
    cases hs
    obtain ⟨_, _, hm⟩ := releaseStep_moves s t _ _ g _ hpc
    exact h.lockMove ht hl hm nofun hg
  | die =>
    cases hs
    exact h.dies hl halive ht (.inl hpc)
  | dieSoon =>
    cases hs
    exact h.dies hl halive ht (.inr hpc)
  | exitHeld | exitTest =>
    cases hs
    exact h.goto ht _

theorem pStep_sleepers {e : PEvent} (hl : Locks s) (h : Sleepers tidy s) (hs : pStep s e = some s')
    (hg : tidy → WakesOnGarbage s e) : Sleepers tidy s' := by
  obtain ⟨_, halive, ht, hs⟩ := pStep_can hs
  -- a store of a thread to itself
  have own : ∀ t f, (s.proc t).blockedOn = none →
      (∀ x : Proc, (f x).blockedOn = x.blockedOn ∧ (f x).lock = x.lock ∧ (f x).life = x.life) →
      Sleepers tidy (s.modify t f) := by
    intro t f ht hf
    rw [← PSys.modify_id s t]
    exact h.stores ht t (fun _ => ⟨rfl, rfl, rfl, rfl⟩) hf
  cases hs with
  | run hs => exact runStep_asleep hl h hs halive ht hg
  | copied | wait => exact h.goto ht _
  | created => exact h.born ht hl halive
  | noThread => exact h.keep (.crash s _ _) ht fun _ _ => rfl
  | noCopy | exit | terminate | kill | loaded | failed =>
    refine own _ _ ht ?_
    exact fun _ => ⟨rfl, rfl, rfl⟩
  | @noFile t =>
    have hmod : Sleepers tidy (s.modify t fun x => { x with loaded := some false }) :=
      own t _ ht fun _ => ⟨rfl, rfl, rfl⟩
    refine hmod.keep (t := t) (.crash _ _ t) ?_ fun _ _ => rfl
    have ht' : (s.proc t).blockedOn = none := ht
    simpa using ht'

theorem pInit_sleepers : Sleepers tidy pInit := by
  have hblocked : ∀ u, (pInit.proc u).blockedOn = none := by
    intro u
    by_cases h1 : u = 1 <;> by_cases h2 : u = 2 <;> simp [pInit, noProc, newProc, h1, h2]
  have hwaiters : ∀ c l, ((pInit.proc c).lock l).waiters = [] := by
    intro c l
    by_cases h1 : c = 1 <;> by_cases h2 : c = 2 <;> cases l <;>
      simp [pInit, noProc, newProc, h1, h2]
  refine ⟨fun q c l hb => ?_, fun c l q _ hq => ?_, fun c l _ => ?_, fun c l _ _ => hwaiters c l⟩
  · rw [hblocked] at hb
    cases hb
  · rw [hwaiters] at hq
    cases hq
  · rw [hwaiters]
    exact Nat.zero_le _

end Pintos
