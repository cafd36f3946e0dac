/-
  Subject:   The commands of an IDE channel and their completion interrupts.

  `ide_read` and `ide_write` hold the channel lock from before a command is issued until its
  `sema_down (&c->completion_wait)` has returned. The disk raises one completion interrupt for each
  command, at any time after it was issued; spurious interrupts on the same line come at any time. The
  handler tells them apart by `expecting_interrupt`, which `issue_pio_command` sets and nothing clears.

  Waiting for the disk (`wait_while_busy`, `wait_until_idle`) and the transfer of the data do not touch
  the channel's lock, flag or semaphore: they are delays here. `ide_init` may leave the flag set, since
  it identifies the disks by a command, so a run starts with either value.

  `pending`, `completed`, `returned` and `stray` are not in the source: the commands the disk is working
  on, those whose interrupt has come, those whose `sema_down` has returned, and the interrupts that
  incremented `completion_wait` while the disk was working on none.

  **`ide_safe`**: `IdeSafe` holds in every run whose spurious interrupts come before the flag is set.
-/
import Pintos.Threads.Monitor

namespace Pintos

open Lib Function

/-! ## 1. The code of a channel -/

/-- Where a thread is in `ide_read` (`write` is false) or `ide_write`. `i` is its command. -/
inductive IdePlace where
  | out
  | acquire (write : Bool)
  | expect (write : Bool)
  | command (write : Bool)
  | output (i : ℕ)
  | wait (write : Bool) (i : ℕ)
  | input (i : ℕ)
  | release (i : ℕ)
  deriving DecidableEq, Repr

structure IdeData where
  /-- `expecting_interrupt`. -/
  expecting : Bool
  issued : ℕ
  pending : List ℕ
  completed : List ℕ
  returned : List ℕ
  stray : ℕ
  deriving DecidableEq, Repr

inductive IdeIntr where
  /-- The completion interrupt of command `i`. -/
  | complete (i : ℕ)
  | spurious
  deriving DecidableEq, Repr

/-- `interrupt_handler`: semaphore 0 of the channel is `completion_wait`. -/
def ideHandler (d : IdeData) : Option ℕ := if d.expecting then some 0 else none

def ideCode (d : IdeData) : IdePlace → Option (Stmt IdePlace IdeData)
  | .out => none
  | .acquire w => some (.lock .acquire (.expect w))
  | .expect w => some (.store { d with expecting := true } (.command w))
  | .command w =>
    some (.store { d with issued := d.issued + 1, pending := d.issued :: d.pending }
      (if w then .output d.issued else .wait w d.issued))
  | .output i => some (.store d (.wait true i))
  | .wait w i =>
    some (.down 0 { d with returned := i :: d.returned } (if w then .release i else .input i))
  | .input i => some (.store d (.release i))
  | .release _ => some (.lock .release .out)

def IdePlace.sleeps : IdePlace → Option ℕ
  | .wait _ _ => some 0
  | _ => none

variable {p p' : IdePlace} {i n : ℕ} {e : MonEvent Bool IdeIntr}

theorem ideCode_down {d d' : IdeData} (h : ideCode d p = some (.down n d' p')) :
    p.sleeps = some n := by
  cases p <;> cases h
  rfl

/-- A channel. A call is `ide_write` if its argument is true. -/
def ideClient : Client IdePlace IdeData Bool IdeIntr where
  out := .out
  enter _ _ _ w := some (.acquire w)
  code _ d _ p := ideCode d p
  handler
    | .complete i, d =>
      if i ∈ d.pending then
        some ({ d with pending := d.pending.erase i, completed := i :: d.completed }, ideHandler d)
      else none
    | .spurious, d =>
      some ({ d with stray := d.stray + if d.expecting ∧ d.pending = [] then 1 else 0 },
        ideHandler d)
  sleeps := IdePlace.sleeps
  sleeps_out := rfl
  sleeps_down := ideCode_down

def ideInit (expecting : Bool) (status : Tid → ThreadStatus) (priority : Tid → Int) :
    MonSys IdePlace IdeData :=
  .init ideClient ⟨expecting, 0, [], [], [], 0⟩ status priority

/-- **Commands complete on their own interrupt**: no `sema_down` has returned before the command's
    completion interrupt, no interrupt without a command was counted, and `completion_wait` is 0 while
    nobody holds the channel. -/
structure IdeSafe (s : MonSys IdePlace IdeData) : Prop where
  own : ∀ i ∈ s.data.returned, i ∈ s.data.completed
  stray : s.data.stray = 0
  idle : s.lock.holder = none → (s.bank 0).value = 0

/-- Spurious interrupts come only while no interrupt is expected. -/
def StrayUnexpected (s : MonSys IdePlace IdeData) (e : MonEvent Bool IdeIntr) : Prop :=
  e = .intr .spurious → s.data.expecting = false

instance (s : MonSys IdePlace IdeData) (e : MonEvent Bool IdeIntr) : Decidable (StrayUnexpected s e) :=
  inferInstanceAs (Decidable (_ → _))

/-! ## 2. The invariant -/

/-- After `lock_acquire` has returned and before `lock_release`. -/
def IdePlace.inside : IdePlace → Bool
  | .out | .acquire _ | .expect _ => false
  | _ => true

/-- The command that is issued and whose `sema_down` has not returned. -/
def IdePlace.flight : IdePlace → Option ℕ
  | .output i => some i
  | .wait _ i => some i
  | _ => none

/-- Where command `i` is while its thread has not returned from `sema_down`: the disk works on it, or
    its interrupt has come. -/
def InFlight (s : MonSys IdePlace IdeData) (i : ℕ) : Prop :=
  (s.data.pending = [i] ∧ (s.bank 0).value = 0) ∨
    (s.data.pending = [] ∧ (s.bank 0).value = 1 ∧ i ∈ s.data.completed)

structure IdeInv (s : MonSys IdePlace IdeData) : Prop where
  mon : MonInv ideClient s
  inside : ∀ t, (s.place t).inside = true → s.lock.phase t = .out ∧ s.lock.holder = some t
  acquiring : ∀ t w, s.place t = .expect w → s.lock.Acquiring t
  expecting : ∀ t, (s.place t).inside = true → s.data.expecting = true
  flight : ∀ t i, (s.place t).flight = some i → InFlight s i
  idle : (∀ t, (s.place t).flight = none) → s.data.pending = [] ∧ (s.bank 0).value = 0
  own : ∀ i ∈ s.data.returned, i ∈ s.data.completed
  stray : s.data.stray = 0

namespace IdeInv

variable {s s' : MonSys IdePlace IdeData} {t : Tid}

theorem inside_of_flight (h : p.flight = some i) : p.inside = true := by
  cases p <;> first | rfl | cases h

theorem alone (h : IdeInv s) {u : Tid} (ht : (s.place t).inside = true)
    (hu : (s.place u).inside = true) : t = u :=
  Option.some.inj ((h.inside t ht).2.symm.trans (h.inside u hu).2)

/-- **Nobody has a command in flight** while another thread is inside with none. -/
theorem none_flying (h : IdeInv s) (ht : (s.place t).inside = true)
    (hn : (s.place t).flight = none) : s.data.pending = [] ∧ (s.bank 0).value = 0 := by
  refine h.idle fun u => ?_
  cases hf : (s.place u).flight with
  | none => rfl
  | some i =>
    have hut := h.alone ht (inside_of_flight hf)
    subst hut
    exact hn.symm.trans hf |>.symm

theorem safe (h : IdeInv s) : IdeSafe s where
  own := h.own
  stray := h.stray
  idle hfree := by
    refine (h.idle fun u => ?_).2
    cases hf : (s.place u).flight with
    | none => rfl
    | some i =>
      have hh := (h.inside u (inside_of_flight hf)).2
      rw [hfree] at hh
      cases hh

theorem init (expecting : Bool) (status : Tid → ThreadStatus) (priority : Tid → Int) :
    IdeInv (ideInit expecting status priority) where
  mon := .init ideClient _ status priority
  inside _ h := by cases h
  acquiring _ _ h := by cases h
  expecting _ h := by cases h
  flight _ _ h := by cases h
  idle _ := ⟨rfl, rfl⟩
  own _ h := absurd h List.not_mem_nil
  stray := rfl

/-! ## 3. Steps -/

/-- A thread that is not the actor, after a step: where it is, and what it has of the lock. -/
theorem others (h : IdeInv s) (hm : MonMove ideClient s e s') (hg : e ≠ .go t) :
    ((s.place t).flight = (s'.place t).flight ∧ (s.place t).inside = (s'.place t).inside) ∧
    ((s'.place t).inside = true → s'.lock.phase t = .out ∧ s'.lock.holder = some t) ∧
    ∀ w, s'.place t = .expect w → s'.lock.Acquiring t := by
  by_cases hent : ∃ w, e = .enter t w
  · -- a thread that enters is before `lock_acquire`
    obtain ⟨w, rfl⟩ := hent
    cases hm with
    | enter hout _ hc =>
      cases hc
      simp only [MonSys.setPlace, update_self]
      rw [hout]
      exact ⟨⟨rfl, rfl⟩, nofun, nofun⟩
  · rw [hm.place_other h.mon hg fun w hw => hent ⟨w, hw⟩]
    refine ⟨⟨rfl, rfl⟩, fun hin => ?_, fun w hw => ?_⟩
    · have hout : s.place t ≠ .out := fun e => by
        rw [e] at hin
        cases hin
      exact hm.holding h.mon hout hg (h.inside t hin)
    · have hout : s.place t ≠ .out := fun e => by
        rw [e] at hw
        cases hw
      exact (hm.others h.mon hout hg).2.1 (h.acquiring t w hw)

/-- **A step without an effect on commands**: what is left to show is about the actor. -/
theorem quiet (h : IdeInv s) (hm : MonMove ideClient s e s')
    (hd : s'.data = { s.data with expecting := s'.data.expecting })
    (hx : s.data.expecting = true → s'.data.expecting = true)
    (hv : (s'.bank 0).value = (s.bank 0).value)
    (ht : ∀ t, e = .go t → (s'.place t).flight = (s.place t).flight ∧
      ((s'.place t).inside = true → (s'.lock.phase t = .out ∧ s'.lock.holder = some t) ∧
        s'.data.expecting = true) ∧
      ∀ w, s'.place t = .expect w → s'.lock.Acquiring t) : IdeInv s' := by
  have hpend : s'.data.pending = s.data.pending := by rw [hd]
  have hcomp : s'.data.completed = s.data.completed := by rw [hd]
  have hflight : ∀ t, (s'.place t).flight = (s.place t).flight := fun t => by
    by_cases hg : e = .go t
    · exact (ht t hg).1
    · exact (h.others hm hg).1.1.symm
  refine ⟨h.mon.step hm, fun t hin => ?_, fun t w hw => ?_, fun t hin => ?_, fun t i hf => ?_,
    fun hn => ?_, fun i hi => ?_, ?_⟩
  · by_cases hg : e = .go t
    · exact ((ht t hg).2.1 hin).1
    · exact (h.others hm hg).2.1 hin
  · by_cases hg : e = .go t
    · exact (ht t hg).2.2 w hw
    · exact (h.others hm hg).2.2 w hw
  · by_cases hg : e = .go t
    · exact ((ht t hg).2.1 hin).2
    · exact hx (h.expecting t ((h.others hm hg).1.2.trans hin))
  · rw [hflight] at hf
    have hfl := h.flight t i hf
    unfold InFlight at hfl ⊢
    rw [hpend, hcomp, hv]
    exact hfl
  · rw [hpend, hv]
    exact h.idle fun t => (hflight t).symm.trans (hn t)
  · have hret : s'.data.returned = s.data.returned := by rw [hd]
    rw [hret] at hi
    rw [hcomp]
    exact h.own i hi
  · rw [hd]
    exact h.stray

/-- A step after which the command of `t` is the only one in flight, or none is. -/
theorem alone_step (h : IdeInv s) (hm : MonMove ideClient s (.go t) s')
    (hin : (s.place t).inside = true) (hin' : (s'.place t).inside = true)
    (hlock : s'.lock = s.lock ∨ ∃ f, s'.lock = { s.lock with sys := f })
    (hx : s'.data.expecting = s.data.expecting)
    (hfl : ∀ i, (s'.place t).flight = some i → InFlight s' i)
    (hidle : (s'.place t).flight = none → s'.data.pending = [] ∧ (s'.bank 0).value = 0)
    (hown : ∀ i ∈ s'.data.returned, i ∈ s'.data.completed)
    (hstray : s'.data.stray = s.data.stray) : IdeInv s' := by
  have hkeep : s'.lock.phase = s.lock.phase ∧ s'.lock.holder = s.lock.holder := by
    rcases hlock with e | ⟨f, e⟩ <;> rw [e] <;> exact ⟨rfl, rfl⟩
  have hoth : ∀ u, u ≠ t → (s'.place u).flight = none ∧ (s'.place u).inside = false := by
    intro u hu
    have hg : MonEvent.go t ≠ (.go u : MonEvent Bool IdeIntr) := by
      rintro e
      cases e
      exact hu rfl
    obtain ⟨⟨hf, hi⟩, -⟩ := h.others hm hg
    have hout : (s.place u).inside = false := by
      cases hc : (s.place u).inside with
      | false => rfl
      | true => exact absurd (h.alone hc hin) hu
    refine ⟨?_, hi.symm.trans hout⟩
    rw [← hf]
    cases hc : (s.place u).flight with
    | none => rfl
    | some i => exact absurd ((inside_of_flight hc).symm.trans hout) nofun
  refine ⟨h.mon.step hm, fun u hu => ?_, fun u w hw => ?_, fun u hu => ?_, fun u i hf => ?_,
    fun hn => hidle (hn t), hown, hstray.trans h.stray⟩
  · rw [hkeep.1, hkeep.2]
    by_cases e : u = t
    · subst e
      exact h.inside u hin
    · exact absurd (hu.symm.trans (hoth u e).2) nofun
  · by_cases e : u = t
    · subst e
      rw [hw] at hin'
      cases hin'
    · exact (h.others hm fun hg => e (by cases hg; rfl)).2.2 w hw
  · rw [hx]
    exact h.expecting t hin
  · by_cases e : u = t
    · subst e
      exact hfl i hf
    · exact absurd (hf.symm.trans (hoth u e).1) nofun

theorem go (h : IdeInv s) (hm : MonMove ideClient s (.go t) s') : IdeInv s' := by
  have hm' := hm
  cases hm with
  | @store _ d p hf hc =>
    cases hp : s.place t with
    | expect w =>
      rw [hp] at hc
      cases hc
      refine h.quiet hm' rfl (fun _ => rfl) rfl ?_
      rintro u e
      cases e
      have hh := (h.acquiring t w hp).holder hf.1
      simp only [MonSys.setPlace, update_self, hp]
      exact ⟨rfl, fun _ => ⟨⟨hf.1, hh⟩, trivial⟩, by simp⟩
    | command w =>
      rw [hp] at hc
      cases hc
      have hin : (s.place t).inside = true := by rw [hp]; rfl
      obtain ⟨hpend, hv⟩ := h.none_flying hin (by rw [hp]; rfl)
      have hfly : ∀ i, (if w then IdePlace.output s.data.issued else .wait w s.data.issued).flight =
          some i → i = s.data.issued := by
        intro i hi
        cases w <;> cases hi <;> rfl
      refine h.alone_step hm' hin ?_ (.inl rfl) rfl (fun i hi => ?_) (fun hn => ?_) h.own rfl
      · simp only [MonSys.setPlace, update_self]
        cases w <;> rfl
      · simp only [MonSys.setPlace, update_self] at hi
        rw [hfly i hi]
        exact .inl ⟨congrArg _ hpend, hv⟩
      · simp only [MonSys.setPlace, update_self] at hn
        cases w <;> cases hn
    | output i | input i =>
      rw [hp] at hc
      cases hc
      refine h.quiet hm' rfl id rfl ?_
      rintro u e
      cases e
      have hin : (s.place t).inside = true := by rw [hp]; rfl
      simp only [MonSys.setPlace, update_self, hp]
      exact ⟨rfl, fun _ => ⟨h.inside t hin, h.expecting t hin⟩, by simp⟩
    | out | acquire | wait | release =>
      rw [hp] at hc
      cases hc
  | @call _ c p l hf hc hs =>
    refine h.quiet hm' rfl id rfl ?_
    rintro u e
    cases e
    simp only [MonSys.setPlace, update_self]
    simp only [lockStep] at hs
    split at hs
    · cases hs
      cases hp : s.place t with
      | acquire w =>
        rw [hp] at hc
        cases hc
        exact ⟨rfl, by rintro ⟨⟩, fun _ _ => .inl (update_self ..)⟩
      | release i =>
        rw [hp] at hc
        cases hc
        exact ⟨rfl, by intros; contradiction, by intros; contradiction⟩
      | out | expect | command | output | wait | input =>
        rw [hp] at hc
        cases hc
    · cases hs
  | @sleep _ n d p hf hc hv =>
    refine h.quiet hm' rfl id ?_ ?_
    · by_cases e : (0 : ℕ) = n
      · subst e
        simp only [MonSys.putBack, update_self]
        rfl
      · simp only [MonSys.putBack, update_of_ne e]
    · rintro u e
      cases e
      exact ⟨rfl, fun hin => ⟨h.inside t hin, h.expecting t hin⟩, fun w hw => h.acquiring t w hw⟩
  | @through _ n d p hf hc hv =>
    cases hp : s.place t with
    | wait w i =>
      rw [hp] at hc
      cases hc
      have hin : (s.place t).inside = true := by rw [hp]; rfl
      obtain ⟨-, hz⟩ | ⟨hpend, hone, hdone⟩ := h.flight t i (by rw [hp]; rfl)
      · exact absurd hz hv
      · refine h.alone_step hm' hin ?_ (.inr ⟨_, rfl⟩) rfl (fun j hj => ?_) (fun _ => ?_) ?_ rfl
        · simp only [MonSys.setPlace, update_self]
          cases w <;> rfl
        · simp only [MonSys.setPlace, update_self] at hj
          cases w <;> cases hj
        · refine ⟨hpend, ?_⟩
          simp only [MonSys.setPlace, MonSys.putBack, update_self]
          show (s.bank 0).value - 1 = 0
          omega
        · intro j hj
          rcases List.mem_cons.mp hj with rfl | hj
          · exact hdone
          · exact h.own j hj
    | out | acquire | expect | command | output | input | release =>
      rw [hp] at hc
      cases hc
  | @up _ n d p s₁ hf hc hu =>
    cases hp : s.place t <;> rw [hp] at hc <;> cases hc

/-- While the disk works on a command, a thread is inside with it, so an interrupt is expected. -/
theorem working (h : IdeInv s) (hi : i ∈ s.data.pending) :
    s.data.expecting = true ∧ s.data.pending = [i] ∧ (s.bank 0).value = 0 ∧
      (∃ t, (s.place t).flight = some i) ∧ ∀ t j, (s.place t).flight = some j → j = i := by
  have hex : ∃ t j, (s.place t).flight = some j := by
    by_contra hno
    have hpend := (h.idle fun t => by
      cases hf : (s.place t).flight with
      | none => rfl
      | some j => exact absurd ⟨t, j, hf⟩ hno).1
    rw [hpend] at hi
    cases hi
  have hall : ∀ t j, (s.place t).flight = some j → s.data.pending = [j] ∧ (s.bank 0).value = 0 := by
    intro t j hf
    rcases h.flight t j hf with hfl | ⟨hpend, -⟩
    · exact hfl
    · rw [hpend] at hi
      cases hi
  obtain ⟨t, j, hf⟩ := hex
  obtain ⟨hpend, hv⟩ := hall t j hf
  have hij : i = j := by
    rw [hpend] at hi
    exact List.mem_singleton.mp hi
  subst hij
  refine ⟨h.expecting t (inside_of_flight hf), hpend, hv, ⟨t, hf⟩, fun u k hk => ?_⟩
  have hk' := (hall u k hk).1
  rw [hpend] at hk'
  cases hk'
  rfl

theorem complete (h : IdeInv s) (hm : MonMove ideClient s (.intr (.complete i)) s') :
    IdeInv s' := by
  have hm' := hm
  cases hm with
  | @intr _ d hc =>
    simp only [ideClient] at hc
    split at hc
    · rename_i hi
      obtain ⟨hx, -⟩ := h.working hi
      simp only [ideHandler, if_pos hx] at hc
      cases hc
    · cases hc
  | @intrUp _ d n s₁ hc hu =>
    simp only [ideClient] at hc
    split at hc
    · rename_i hi
      obtain ⟨hx, hpend, hv, ⟨u, hu'⟩, hone⟩ := h.working hi
      simp only [ideHandler, if_pos hx] at hc
      cases hc
      obtain ⟨s₂, hu2, -, hup⟩ := h.mon.up 0
      cases hu.symm.trans hu2
      have hplace : ∀ t, s₁.place t = s.place t := congrFun hup.place
      have hpend' : s.data.pending.erase i = [] := by
        rw [hpend]
        exact List.erase_cons_head ..
      refine ⟨h.mon.step hm', fun t hin => ?_, fun t w hw => ?_, fun t hin => hx, fun t j hf => ?_,
        fun hn => ?_, fun j hj => List.mem_cons_of_mem _ (h.own j hj), h.stray⟩
      · exact (h.others hm' nofun).2.1 hin
      · exact (h.others hm' nofun).2.2 w hw
      · rw [show (s₁.place t) = s.place t from hplace t] at hf
        rw [hone t j hf]
        refine .inr ⟨hpend', ?_, List.mem_cons_self⟩
        show (s₁.bank 0).value = 1
        have hval := hup.value
        omega
      · have hnone := hn u
        rw [show (s₁.place u) = s.place u from hplace u, hu'] at hnone
        cases hnone
    · cases hc

theorem step (h : IdeInv s) (ho : StrayUnexpected s e) (hm : MonMove ideClient s e s') :
    IdeInv s' := by
  cases e with
  | go t => exact h.go hm
  | intr i =>
    cases i with
    | complete i => exact h.complete hm
    | spurious =>
      have hx : s.data.expecting = false := ho rfl
      have hm' := hm
      cases hm with
      | intr hc =>
        simp only [ideClient, ideHandler, hx, Bool.false_eq_true, false_and, if_false] at hc
        cases hc
        exact h.quiet hm' rfl (fun ht => absurd (hx.symm.trans ht) nofun) rfl nofun
      | intrUp hc _ =>
        simp only [ideClient, ideHandler, hx, Bool.false_eq_true, if_false] at hc
        cases hc
  | lock e | enter t w =>
    have hm' := hm
    cases hm
    exact h.quiet hm' rfl id rfl nofun

end IdeInv

/-! ## 4. Every run -/

/-- **IDE commands complete on their own interrupt** in every run whose spurious interrupts come while
    `expecting_interrupt` is false. -/
theorem ide_safe (expecting : Bool) (status : Tid → ThreadStatus) (priority : Tid → Int)
    (s : MonSys IdePlace IdeData)
    (hr : Reach (monStep ideClient) StrayUnexpected (ideInit expecting status priority) s) :
    IdeSafe s :=
  (hr.invariant (IdeInv.init expecting status priority) fun _ _ _ h ho hs =>
    h.step ho (monStep_move hs)).safe

/-- `ide_read` by thread `t`, up to and with its `sema_down` statement; the disk completes the command
    if `done`. -/
def ideReadSteps (t : Tid) (done : List (MonEvent Bool IdeIntr)) : List (MonEvent Bool IdeIntr) :=
  [.enter t false, .go t, .lock (.go t), .lock (.go t), .go t, .go t] ++ done ++ [.go t]

/-- The transfer of the data and `lock_release`. -/
def ideReadTail (t : Tid) : List (MonEvent Bool IdeIntr) :=
  [.go t, .go t, .lock (.go t), .lock (.go t)]

def ideStart : MonSys IdePlace IdeData := ideInit false (fun _ => .ready) fun _ => 31

/-- A spurious interrupt before the first command does no harm. -/
theorem ide_safe_early : ∃ s, runList (stepIf (monStep ideClient) StrayUnexpected) ideStart
      (.intr .spurious :: ideReadSteps 1 [.intr (.complete 0)] ++ ideReadTail 1) = some s ∧
      s.data.returned = [0] ∧ IdeSafe s := by
  have hrun : ((runList (stepIf (monStep ideClient) StrayUnexpected) ideStart
      (.intr .spurious :: ideReadSteps 1 [.intr (.complete 0)] ++ ideReadTail 1)).map fun s =>
        s.data.returned) = some [0] := by decide
  obtain ⟨s, hs, hret⟩ := Option.map_eq_some_iff.mp hrun
  exact ⟨s, hs, hret, ide_safe false _ _ s (reach_runIf _ hs)⟩

/-- **A spurious interrupt after a command**: it is counted while no command is outstanding,
    `completion_wait` is 1 while the channel is free, and the next `sema_down` returns before its
    command is complete. -/
theorem ide_stray : ∃ s₁ s₂,
    Reach (monStep ideClient) always ideStart s₁ ∧ Reach (monStep ideClient) always s₁ s₂ ∧
    s₁.lock.holder = none ∧ s₁.data.pending = [] ∧ s₁.data.stray = 1 ∧ (s₁.bank 0).value = 1 ∧
    s₂.data.returned = [1, 0] ∧ s₂.data.completed = [0] ∧ ¬ IdeSafe s₁ ∧ ¬ IdeSafe s₂ := by
  have hrun : ((runList (monStep ideClient) ideStart
      (ideReadSteps 1 [.intr (.complete 0)] ++ ideReadTail 1 ++ [.intr .spurious])).bind fun s₁ =>
        (runList (monStep ideClient) s₁ (ideReadSteps 2 [])).map fun s₂ =>
          (s₁.lock.holder, s₁.data, s₁.bank 0, s₂.data)) =
      some (none, ⟨true, 1, [], [0], [0], 1⟩, ⟨1, []⟩, ⟨true, 2, [1], [0], [1, 0], 1⟩) := by
    decide
  obtain ⟨s₁, hs1, hrest⟩ := Option.bind_eq_some_iff.mp hrun
  obtain ⟨s₂, hs2, he⟩ := Option.map_eq_some_iff.mp hrest
  have hh : s₁.lock.holder = none := congrArg (fun x => x.1) he
  have hd1 : s₁.data = ⟨true, 1, [], [0], [0], 1⟩ := congrArg (fun x => x.2.1) he
  have hb : s₁.bank 0 = ⟨1, []⟩ := congrArg (fun x => x.2.2.1) he
  have hd2 : s₂.data = ⟨true, 2, [1], [0], [1, 0], 1⟩ := congrArg (fun x => x.2.2.2) he
  refine ⟨s₁, s₂, reach_runList _ (fun _ _ _ => trivial) hs1, reach_runList _ (fun _ _ _ => trivial) hs2,
    hh, by rw [hd1], by rw [hd1], by rw [hb], by rw [hd2], by rw [hd2], fun h => ?_, fun h => ?_⟩
  · have hv := h.idle hh
    rw [hb] at hv
    cases hv
  · have hown := h.own 1 (by rw [hd2]; exact List.mem_cons_self)
    rw [hd2] at hown
    simp at hown

end Pintos
