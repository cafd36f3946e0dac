/-
  Subject:   What a step of `lock_acquire` and `lock_release` can change.

  A step of either call moves the thread along the call, changes one lock and may wake a thread or block
  its own; everything else a process consists of (`Proc.data`) stays (`Goes`).
-/
import Pintos.Userprog.Process

namespace Pintos

/-- `n` steps of thread `t`, for runs that are written out. -/
def steps (n : ℕ) (t : Tid) (garbage : ℕ) : List PEvent := List.replicate n (.run t garbage)

/-- "main" starts a program and waits for it; the program ends in the way `how` says, and "main"
    has its answer. -/
def waitedFor (how : PEvent) : List PEvent :=
  [.execute 1 true, .create 1 true] ++ steps 2 1 0 ++ [.load 3 .success] ++ steps 3 3 0 ++
    steps 11 1 0 ++ [.wait 1 3] ++ steps 4 1 0 ++ [how] ++ steps 4 3 0 ++ steps 11 1 0 ++
    steps 5 3 0 ++ steps 3 1 1

/-! ## 1. Reading a state after a store -/

namespace PSys

@[simp] theorem proc_modify (s : PSys) (t u : Tid) (f : Proc → Proc) :
    (s.modify t f).proc u = if u = t then f (s.proc t) else s.proc u := by
  by_cases h : u = t
  · subst h
    simp [modify]
  · simp [modify, h]

@[simp] theorem proc_crash (s : PSys) (e : Crash) (t u : Tid) :
    (s.crash e t).proc u = s.proc u := rfl

@[simp] theorem proc_touch (s : PSys) (c u : Tid) : (s.touch c).proc u = s.proc u := by
  unfold touch
  split <;> rfl

theorem nextTid_touch (s : PSys) (c : Tid) : (s.touch c).nextTid = s.nextTid := by
  unfold touch
  split <;> rfl

theorem touch_alive {s : PSys} {c : Tid} (h : s.onAllList c = true) : s.touch c = s := by
  have h' : (s.proc c).life = .alive := by simpa [onAllList] using h
  rw [touch, if_pos h']

theorem crashed_touch (s : PSys) (c : Tid) : (s.touch c).crashed = s.crashed := by
  unfold touch
  split <;> rfl

theorem onAllList_iff (s : PSys) (c : Tid) : s.onAllList c = true ↔ (s.proc c).life = .alive := by
  simp [onAllList]

end PSys

variable {α : Type} {f : Proc → Proc} {u : Tid} {x y : Proc} {k : Acq → PC} {a : Acq} {r : Rel}
  {e : PEvent}

theorem modify_field (φ : Proc → α) (s : PSys) (c : Tid) (hf : ∀ x, φ (f x) = φ x) (u : Tid) :
    φ ((s.modify c f).proc u) = φ (s.proc u) := by
  rw [PSys.proc_modify]
  split
  · rename_i hu
    rw [hu, hf]
  · rfl

theorem returnWait_field (φ : Proc → α) (s : PSys) (t : Tid) (tid r : Int)
    (hw : ∀ x w, φ { x with waitResult := w } = φ x)
    (hr : ∀ x, φ { x with pc := .user, eax := r } = φ x) (u : Tid) :
    φ ((returnWait s t tid r).proc u) = φ (s.proc u) := by
  unfold returnWait
  rw [modify_field φ _ t hr, modify_field φ]
  intro x
  split
  · exact hw x _
  · rfl

theorem PSys.modify_id (s : PSys) (c : Tid) : s.modify c (fun x => x) = s := by
  simp [modify]

theorem PSys.modify_modify (s : PSys) (t : Tid) (f g : Proc → Proc) :
    (s.modify t f).modify t g = s.modify t fun x => g (f x) := by
  simp [modify]

/-- The flags that say what went wrong. -/
def PSys.flags (s : PSys) : Bool × Option (Crash × Tid × PC) := (s.uaf, s.crashed)

@[simp] theorem flags_goto (s : PSys) (t : Tid) (pc : PC) : (s.goto t pc).flags = s.flags := rfl

@[simp] theorem flags_plockUp (s : PSys) (c : Tid) (l : LockName) (g : ℕ) :
    (plockUp s c l g).flags = s.flags := by
  unfold plockUp
  dsimp only
  split <;> rfl

theorem flags_crash (s : PSys) (e : Crash) (t : Tid) :
    (s.crash e t).flags = (s.uaf, some (e, t, (s.proc t).pc)) := rfl

/-- The state after `t` has created a thread. -/
def PSys.born (s : PSys) (t : Tid) : PSys :=
  { s with
    proc := Function.update s.proc s.nextTid (newProc s.nextTid (some t) .load)
    nextTid := s.nextTid + 1 }.goto t (.soonLookup s.nextTid)

section Born

variable {s : PSys} {t : Tid} (hlt : t < s.nextTid)
include hlt

theorem born_parent : (s.born t).proc t = { s.proc t with pc := .soonLookup s.nextTid } := by
  simp [PSys.born, PSys.goto, Nat.ne_of_lt hlt]

theorem born_child : (s.born t).proc s.nextTid = newProc s.nextTid (some t) .load := by
  simp [PSys.born, PSys.goto, Nat.ne_of_gt hlt]

omit hlt in
theorem born_other (ht : u ≠ t) (hn : u ≠ s.nextTid) : (s.born t).proc u = s.proc u := by
  simp [PSys.born, PSys.goto, ht, hn]

end Born

theorem lt_nextTid {s : PSys} {t : Tid} (fresh : ∀ t, s.nextTid ≤ t → (s.proc t).life = .unborn)
    (halive : (s.proc t).life = .alive) : t < s.nextTid := by
  by_contra hge
  rw [fresh t (Nat.le_of_not_lt hge)] at halive
  cases halive

/-! ## 2. Steps that only move -/

/-- A process without its locks, its program counter and what it is blocked on. -/
def Proc.data (x : Proc) : Proc :=
  { x with lock := fun _ => ⟨0, none, []⟩, pc := .dead, blockedOn := none, eax := 0 }

theorem data_field (f : Proc → α) (h : x.data = y.data) (hf : ∀ z : Proc, f z.data = f z) :
    f x = f y := by
  rw [← hf x, ← hf y, h]

theorem data_life (h : x.data = y.data) : x.life = y.life :=
  data_field Proc.life h fun _ => rfl

theorem data_parent (h : x.data = y.data) : x.parent = y.parent :=
  data_field Proc.parent h fun _ => rfl

/-- **Thread `t` goes on at `pc'`**, and no data changes. -/
structure Goes (s s' : PSys) (t : Tid) (pc' : PC) : Prop where
  data : ∀ u, (s'.proc u).data = (s.proc u).data
  pc : ∀ u, (s'.proc u).pc = if u = t then pc' else (s.proc u).pc
  next : s'.nextTid = s.nextTid

namespace Goes

variable {s s' s'' : PSys} {t : Tid} {pc' : PC}

theorem here (h : Goes s s' t pc') : (s'.proc t).pc = pc' := by
  rw [h.pc, if_pos rfl]

theorem there (h : Goes s s' t pc') (hu : u ≠ t) : (s'.proc u).pc = (s.proc u).pc := by
  rw [h.pc, if_neg hu]

theorem life (h : Goes s s' t pc') (u : Tid) : (s'.proc u).life = (s.proc u).life :=
  data_life (h.data u)

theorem parent (h : Goes s s' t pc') (u : Tid) : (s'.proc u).parent = (s.proc u).parent :=
  data_parent (h.data u)

end Goes

/-- Only locks, blocking and the flags of the machine differ. -/
structure Still (s s' : PSys) : Prop where
  data : ∀ u, (s'.proc u).data = (s.proc u).data
  pc : ∀ u, (s'.proc u).pc = (s.proc u).pc
  next : s'.nextTid = s.nextTid

namespace Still

variable {s s' s'' : PSys}

theorem refl (s : PSys) : Still s s := ⟨fun _ => rfl, fun _ => rfl, rfl⟩

theorem trans (h : Still s s') (h' : Still s' s'') : Still s s'' :=
  ⟨fun u => (h'.data u).trans (h.data u), fun u => (h'.pc u).trans (h.pc u), h'.next.trans h.next⟩

theorem goto (h : Still s s') (t : Tid) (pc' : PC) : Goes s (s'.goto t pc') t pc' := by
  refine ⟨fun u => ?_, fun u => ?_, h.next⟩
  · rw [PSys.goto, PSys.proc_modify]
    split
    · rename_i hu
      rw [hu]
      exact h.data t
    · exact h.data u
  · rw [PSys.goto, PSys.proc_modify]
    split
    · rfl
    · exact h.pc u

theorem stays (h : Still s s') (t : Tid) : Goes s s' t (s.proc t).pc := by
  refine ⟨h.data, fun u => ?_, h.next⟩
  rw [h.pc]
  split
  · rename_i hu
    rw [hu]
  · rfl

theorem modify (s : PSys) (c : Tid) (hf : ∀ x, (f x).data = x.data) (hpc : ∀ x, (f x).pc = x.pc) :
    Still s (s.modify c f) :=
  ⟨modify_field Proc.data s c hf, modify_field Proc.pc s c hpc, rfl⟩

theorem setLock (s : PSys) (c : Tid) (l : LockName) (x : PLock) : Still s (s.setLock c l x) :=
  modify s c (fun _ => rfl) fun _ => rfl

theorem block (s : PSys) (t c : Tid) (l : LockName) : Still s (s.block t c l) :=
  modify s t (fun _ => rfl) fun _ => rfl

theorem touch (s : PSys) (c : Tid) : Still s (s.touch c) :=
  ⟨fun u => by rw [PSys.proc_touch], fun u => by rw [PSys.proc_touch], s.nextTid_touch c⟩

theorem crash (s : PSys) (e : Crash) (t : Tid) : Still s (s.crash e t) := ⟨fun _ => rfl, fun _ => rfl, rfl⟩

theorem plockUp (s : PSys) (c : Tid) (l : LockName) (g : ℕ) : Still s (plockUp s c l g) := by
  unfold Pintos.plockUp
  dsimp only
  split
  · exact setLock s c l _
  · exact (setLock s c l _).trans (modify _ _ (fun _ => rfl) fun _ => rfl)

end Still

/-! ## 3. The other locks -/

section OtherLocks

variable (s : PSys) (t c : Tid) {l l' : LockName} (hl : l' ≠ l)
include hl

omit hl in
theorem goto_lock (pc : PC) (u : Tid) : ((s.goto t pc).proc u).lock l = (s.proc u).lock l := by
  refine modify_field (fun x => x.lock l) s t ?_ u
  exact fun _ => rfl

omit hl in
theorem block_lock (d : Tid) (m : LockName) (u : Tid) :
    ((s.block t d m).proc u).lock l = (s.proc u).lock l := by
  refine modify_field (fun x => x.lock l) s t ?_ u
  exact fun _ => rfl

omit hl in
theorem unblock_lock (u : Tid) : ((s.unblock t).proc u).lock l = (s.proc u).lock l := by
  refine modify_field (fun x => x.lock l) s t ?_ u
  exact fun _ => rfl

theorem setLock_lock (y : PLock) (u : Tid) :
    ((s.setLock c l y).proc u).lock l' = (s.proc u).lock l' := by
  refine modify_field (fun x => x.lock l') s c (fun x => ?_) u
  simp [hl]

theorem plockUp_lock (g : ℕ) (u : Tid) :
    ((plockUp s c l g).proc u).lock l' = (s.proc u).lock l' := by
  unfold plockUp
  dsimp only
  split
  · exact setLock_lock s c hl _ u
  · rw [unblock_lock]
    exact setLock_lock s c hl _ u

end OtherLocks

/-! ## 4. `lock_acquire` and `lock_release` -/

section Calls

variable (s : PSys) (t c : Tid) (l : LockName) (g : ℕ) (done : PC)

/-- **What a step of `lock_acquire` or `lock_release` does**, and where it leaves `t`. Only where
    `waits` holds it may fall asleep, and `o` is whom it may store as the holder. -/
inductive LockMove (waits : Prop) (o : Option Tid) : PC → PSys → Prop
  | fails {s₁ : PSys} (hs : s₁ = s ∨ s₁ = s.touch c) {e : Crash}
    (he : s.onAllList c = true → e = .assertion) :
    LockMove waits o (s.proc t).pc (s₁.crash e t)
  | goes {s₁ : PSys} (hs : s₁ = s ∨ s₁ = s.touch c) (pc : PC) : LockMove waits o pc (s₁.goto t pc)
  | sets {x : PLock} (hc : s.onAllList c = true) (hw : x.waiters = ((s.proc c).lock l).waiters)
    (hv : x.value ≤ ((s.proc c).lock l).value)
    (hh : x.holder = ((s.proc c).lock l).holder ∨ x.holder = o) (pc : PC) :
    LockMove waits o pc ((s.setLock c l x).goto t pc)
  | blocks (hwaits : waits) (hc : s.onAllList c = true) (hv : ((s.proc c).lock l).value = 0) :
    LockMove waits o (s.proc t).pc ((s.setLock c l { (s.proc c).lock l with
      waiters := ((s.proc c).lock l).waiters ++ [t] }).block t c l)
  | strands (hwaits : waits) (hc : s.onAllList c = false) (hg : g = 0) :
    LockMove waits o (s.proc t).pc ((s.touch c).block t c l)
  | ups (hc : s.onAllList c = true) (pc : PC) : LockMove waits o pc ((plockUp s c l g).goto t pc)

theorem acquireStep_moves (hpc : (s.proc t).pc = k a) : ∃ pc', (pc' = done ∨ ∃ b, pc' = k b) ∧
      LockMove s t c l g (a = .down) (some t) pc' (acquireStep s t c l g k done a) := by
  cases a with
  | lookup =>
    simp only [acquireStep]
    split
    · exact ⟨_, .inr ⟨_, rfl⟩, .goes (.inl rfl) _⟩
    · rename_i hc
      exact ⟨_, .inr ⟨_, hpc⟩, .fails (.inl rfl) fun h => absurd h hc⟩
  | check =>
    simp only [acquireStep]
    split <;> split
    · exact ⟨_, .inr ⟨_, hpc⟩, .fails (.inr rfl) fun _ => rfl⟩
    · exact ⟨_, .inr ⟨_, rfl⟩, .goes (.inr rfl) _⟩
    · exact ⟨_, .inr ⟨_, hpc⟩, .fails (.inr rfl) fun _ => rfl⟩
    · exact ⟨_, .inr ⟨_, rfl⟩, .goes (.inr rfl) _⟩
  | down =>
    simp only [acquireStep]
    split
    · rename_i hc
      split
      · rename_i hv
        exact ⟨_, .inr ⟨_, hpc⟩, .blocks trivial hc hv⟩
      · exact ⟨_, .inr ⟨_, rfl⟩, .sets hc (by rfl) (Nat.sub_le _ _) (.inl (by rfl)) _⟩
    · rename_i hc
      split
      · rename_i hg
        exact ⟨_, .inr ⟨_, hpc⟩, .strands trivial (by simpa using hc) hg⟩
      · exact ⟨_, .inr ⟨_, rfl⟩, .goes (.inr rfl) _⟩
  | hold =>
    simp only [acquireStep]
    split
    · rename_i hc
      exact ⟨_, .inl rfl, .sets hc (by rfl) (by simp) (.inr (by rfl)) _⟩
    · exact ⟨_, .inl rfl, .goes (.inr rfl) _⟩

theorem releaseStep_moves {k : Rel → PC} (hpc : (s.proc t).pc = k r) :
    ∃ pc', (pc' = done ∨ ∃ b, pc' = k b) ∧
      LockMove s t c l g False none pc' (releaseStep s t c l g k done r) := by
  cases r with
  | lookup =>
    simp only [releaseStep]
    split
    · exact ⟨_, .inr ⟨_, rfl⟩, .goes (.inl rfl) _⟩
    · rename_i hc
      exact ⟨_, .inr ⟨_, hpc⟩, .fails (.inl rfl) fun h => absurd h hc⟩
  | check =>
    simp only [releaseStep]
    split <;> split
    · exact ⟨_, .inr ⟨_, rfl⟩, .goes (.inr rfl) _⟩
    · exact ⟨_, .inr ⟨_, hpc⟩, .fails (.inr rfl) fun _ => rfl⟩
    · exact ⟨_, .inr ⟨_, rfl⟩, .goes (.inr rfl) _⟩
    · exact ⟨_, .inr ⟨_, hpc⟩, .fails (.inr rfl) fun _ => rfl⟩
  | clear =>
    simp only [releaseStep]
    split
    · rename_i hc
      exact ⟨_, .inr ⟨_, rfl⟩, .sets hc (by rfl) (by simp) (.inr (by rfl)) _⟩
    · exact ⟨_, .inr ⟨_, rfl⟩, .goes (.inr rfl) _⟩
  | up =>
    simp only [releaseStep]
    split
    · rename_i hc
      exact ⟨_, .inl rfl, .ups hc _⟩
    · exact ⟨_, .inl rfl, .goes (.inr rfl) _⟩

variable {waits : Prop} {o : Option Tid} {pc : PC} {s' : PSys}

variable {s t c l g} in
theorem LockMove.toGoes (h : LockMove s t c l g waits o pc s') : Goes s s' t pc := by
  have base : ∀ {s₁}, s₁ = s ∨ s₁ = s.touch c → Still s s₁ := by
    rintro _ (rfl | rfl)
    · exact .refl _
    · exact .touch s c
  cases h with
  | fails hs => exact ((base hs).trans (.crash _ _ t)).stays t
  | goes hs pc => exact (base hs).goto t pc
  | sets _ _ _ _ pc => exact (Still.setLock s c l _).goto t pc
  | blocks => exact ((Still.setLock s c l _).trans (.block _ t c l)).stays t
  | strands => exact ((Still.touch s c).trans (.block _ t c l)).stays t
  | ups _ pc => exact (Still.plockUp s c l g).goto t pc

theorem acquireStep_goes (hpc : (s.proc t).pc = k a) :
    ∃ pc', (pc' = done ∨ ∃ b, pc' = k b) ∧ Goes s (acquireStep s t c l g k done a) t pc' := by
  obtain ⟨pc', hpc', hm⟩ := acquireStep_moves s t c l g done hpc
  exact ⟨pc', hpc', hm.toGoes⟩

theorem releaseStep_goes {k : Rel → PC} (hpc : (s.proc t).pc = k r) :
    ∃ pc', (pc' = done ∨ ∃ b, pc' = k b) ∧ Goes s (releaseStep s t c l g k done r) t pc' := by
  obtain ⟨pc', hpc', hm⟩ := releaseStep_moves s t c l g done hpc
  exact ⟨pc', hpc', hm.toGoes⟩

variable {s t c l g}

theorem LockMove.crashed (h : LockMove s t c l g waits o pc s') :
    s'.crashed = s.crashed ∨ ∃ e, s'.crashed = some (e, t, (s.proc t).pc) := by
  cases h with
  | fails hs =>
    rcases hs with rfl | rfl
    · exact .inr ⟨_, rfl⟩
    · exact .inr ⟨_, by rw [PSys.crash, PSys.proc_touch]⟩
  | goes hs =>
    rcases hs with rfl | rfl
    · exact .inl rfl
    · exact .inl (s.crashed_touch c)
  | sets | blocks => exact .inl rfl
  | strands => exact .inl (s.crashed_touch c)
  | ups => exact .inl (congrArg Prod.snd (flags_plockUp s c l g))

theorem LockMove.flags (h : LockMove s t c l g waits o pc s') (hc : s.onAllList c = true) :
    s'.flags = s.flags ∨ ∃ t pc, s'.flags = (s.uaf, some (.assertion, t, pc)) := by
  cases h with
  | fails hs he =>
    rw [PSys.touch_alive hc, or_self] at hs
    rw [hs, he hc]
    exact .inr ⟨t, _, flags_crash s _ t⟩
  | goes hs =>
    rw [PSys.touch_alive hc, or_self] at hs
    rw [hs]
    exact .inl (flags_goto s t _)
  | sets | blocks => exact .inl rfl
  | strands _ hoff =>
    rw [hc] at hoff
    cases hoff
  | ups => exact .inl (flags_plockUp s c l g)

theorem LockMove.lock (h : LockMove s t c l g waits o pc s') {l' : LockName} (hl : l' ≠ l) (u : Tid) :
    (s'.proc u).lock l' = (s.proc u).lock l' := by
  cases h with
  | fails hs => rcases hs with rfl | rfl <;> simp [PSys.crash]
  | goes hs pc => rcases hs with rfl | rfl <;> simp [goto_lock]
  | sets => simp [goto_lock, setLock_lock s c hl]
  | blocks => simp [block_lock, setLock_lock s c hl]
  | strands => simp [block_lock]
  | ups => simp [goto_lock, plockUp_lock s c hl]

end Calls

/-! ## 5. What only the process itself changes -/

/-- The part of a process that no other process writes. -/
def Proc.own (x : Proc) : Proc :=
  { x.data with pc := x.pc, exitSoon := false, execResult := none, waitResult := none }

theorem own_field (f : Proc → α) (h : x.own = y.own) (hf : ∀ z : Proc, f z.own = f z) :
    f x = f y := by
  rw [← hf x, ← hf y, h]

/-- A step of `t` as the others see it. -/
structure Others (s s' : PSys) (t : Tid) : Prop where
  own : ∀ u, u ≠ t → (s'.proc u).own = (s.proc u).own
  parent : ∀ u, (s'.proc u).parent = (s.proc u).parent
  next : s'.nextTid = s.nextTid

namespace Others

variable {s s' s'' : PSys} {t : Tid}

theorem trans (h : Others s s' t) (h' : Others s' s'' t) : Others s s'' t :=
  ⟨fun u hu => (h'.own u hu).trans (h.own u hu), fun u => (h'.parent u).trans (h.parent u),
    h'.next.trans h.next⟩

theorem of_goes {pc' : PC} (h : Goes s s' t pc') : Others s s' t := by
  refine ⟨fun u hu => ?_, h.parent, h.next⟩
  unfold Proc.own
  rw [h.data, h.there hu]

theorem self (s : PSys) (t : Tid) (hf : ∀ x, (f x).parent = x.parent) :
    Others s (s.modify t f) t := by
  refine ⟨fun u hu => ?_, modify_field Proc.parent s t hf, rfl⟩
  rw [PSys.proc_modify, if_neg hu]

/-- A store of `t` to a field of another process that is not its own. -/
theorem store (s : PSys) (t c : Tid) (hf : ∀ x, (f x).own = x.own) : Others s (s.modify c f) t :=
  ⟨fun u _ => modify_field Proc.own s c hf u,
    modify_field Proc.parent s c fun x => own_field Proc.parent (hf x) fun _ => rfl, rfl⟩

theorem goto (s : PSys) (t : Tid) (pc : PC) : Others s (s.goto t pc) t :=
  of_goes ((Still.refl s).goto t pc)

theorem touch (s : PSys) (c t : Tid) : Others s (s.touch c) t :=
  of_goes ((Still.touch s c).stays t)

theorem crash (s : PSys) (e : Crash) (t : Tid) : Others s (s.crash e t) t :=
  of_goes ((Still.crash s e t).stays t)

theorem returnExec (s : PSys) (t c : Tid) (r : Int) : Others s (returnExec s t c r) t := by
  refine trans (store s t c ?_) (self _ t ?_) <;> exact fun _ => rfl

theorem returnWait (s : PSys) (t : Tid) (tid r : Int) : Others s (returnWait s t tid r) t := by
  refine trans (store s t tid.toNat fun x => ?_) (self _ t ?_)
  · split <;> rfl
  · exact fun _ => rfl

theorem dies (s : PSys) (t : Tid) (g : ℕ) : Others s (dieStep s t g) t := by
  unfold dieStep
  dsimp only
  split
  · refine trans (of_goes (((Still.setLock s t _ _).trans (.plockUp _ t _ g)).stays t)) (self _ t ?_)
    exact fun _ => rfl
  · exact crash s _ t

end Others

/-- **A step of `t` leaves to every other process what is its own.** -/
theorem runStep_others {s s' : PSys} {t : Tid} {g : ℕ} (hs : runStep s t g = some s') :
    Others s s' t := by
  unfold runStep at hs
  generalize hpc : (s.proc t).pc = pc at hs
  cases pc with
  | kernel | user | create | load | dead => cases hs
  | soonLookup c | execTest2 c | statusLookup c =>
    cases hs
    split
    · exact .goto s t _
    · exact .crash s _ t
  | soonWrite c =>
    cases hs
    split
    · refine Others.trans (.store s t c ?_) (.goto _ t _)
      exact fun _ => rfl
    · exact (Others.touch s c t).trans (.goto _ t _)
  | execExit c a | execExec c a | waitWait c a | waitExit2 c status a | exitExit a =>
    cases hs
    obtain ⟨pc', _, hg⟩ := acquireStep_goes s t _ _ g _ hpc
    exact .of_goes hg
  | waitExit c status r | startRel r | failRel r | exitExec r | exitWait r =>
    cases hs
    obtain ⟨pc', _, hg⟩ := releaseStep_goes s t _ _ g _ hpc
    exact .of_goes hg
  | execTest c =>
    cases hs
    split
    · exact .goto s t _
    · exact .returnExec s t c _
  | execRead c =>
    cases hs
    exact (Others.touch s c t).trans (.returnExec _ t c _)
  | waitGuard tid =>
    cases hs
    split
    · exact .returnWait s t tid _
    · exact .goto s t _
  | statusRead c =>
    cases hs
    exact (Others.touch s c t).trans (.goto _ t _)
  | waitReturn c status =>
    cases hs
    exact .returnWait s t c _
  | failStatus | failSoon =>
    cases hs
    refine Others.trans (.self s t ?_) (.goto _ t _)
    exact fun _ => rfl
  | exitHeld | exitTest =>
    cases hs
    exact .goto s t _
  | die | dieSoon =>
    cases hs
    exact .dies s t _

/-- **What an event does**, and where its thread is for it. -/
inductive Happens (s : PSys) : PEvent → PSys → Prop
  | run {t g s'} (hs : runStep s t g = some s') : Happens s (.run t g) s'
  | copied {t} (hpc : (s.proc t).pc = .user) : Happens s (.execute t true) (s.goto t .create)
  | noCopy {t} (hpc : (s.proc t).pc = .user) :
    Happens s (.execute t false) (s.modify t fun x => { x with eax := tidError })
  | wait {t tid} (hpc : (s.proc t).pc = .user) : Happens s (.wait t tid) (s.goto t (.waitGuard tid))
  | exit {t status} (hpc : (s.proc t).pc = .user) (h2 : 2 < t) :
    Happens s (.exit t status) (startExit s t (some status) status)
  | terminate {t} (hpc : (s.proc t).pc = .user) (h2 : 2 < t) :
    Happens s (.terminate t) (startExit s t (some (-1)) (-1))
  | kill {t vec} (hpc : (s.proc t).pc = .user) (h2 : 2 < t) :
    Happens s (.kill t vec) (startExit s t (if vec = 14 then some (-1) else none) (-1))
  | created {t} (hpc : (s.proc t).pc = .create) : Happens s (.create t true) (s.born t)
  | noThread {t} (hpc : (s.proc t).pc = .create) :
    Happens s (.create t false) (s.crash .nullDeref t)
  | loaded {t} (hpc : (s.proc t).pc = .load) :
    Happens s (.load t .success)
      (s.modify t fun x => { x with pc := .startRel .check, loaded := some true })
  | failed {t} (hpc : (s.proc t).pc = .load) :
    Happens s (.load t .failOpened)
      (s.modify t fun x => { x with pc := .failStatus, loaded := some false })
  | noFile {t} (hpc : (s.proc t).pc = .load) :
    Happens s (.load t .failNoFile)
      ((s.modify t fun x => { x with loaded := some false }).crash .assertion t)

theorem pEvent_happens {s s' : PSys} (hs : pEvent s e = some s') : Happens s e s' := by
  cases e with
  | run t g => exact .run hs
  | execute t copy =>
    obtain ⟨hpc, hs⟩ := Option.ite_none_right_eq_some.mp hs
    cases hs
    cases copy with
    | true => exact .copied hpc
    | false => exact .noCopy hpc
  | wait t tid =>
    obtain ⟨hpc, hs⟩ := Option.ite_none_right_eq_some.mp hs
    cases hs
    exact .wait hpc
  | exit t status =>
    obtain ⟨hpc, hs⟩ := Option.ite_none_right_eq_some.mp hs
    cases hs
    exact .exit hpc.1 hpc.2
  | terminate t =>
    obtain ⟨hpc, hs⟩ := Option.ite_none_right_eq_some.mp hs
    cases hs
    exact .terminate hpc.1 hpc.2
  | kill t vec =>
    obtain ⟨hpc, hs⟩ := Option.ite_none_right_eq_some.mp hs
    cases hs
    exact .kill hpc.1 hpc.2.1
  | create t page =>
    obtain ⟨hpc, hs⟩ := Option.ite_none_right_eq_some.mp hs
    cases page with
    | true =>
      cases hs
      exact .created hpc
    | false =>
      cases hs
      exact .noThread hpc
  | load t outcome =>
    obtain ⟨hpc, hs⟩ := Option.ite_none_right_eq_some.mp hs
    cases outcome with
    | success =>
      cases hs
      exact .loaded hpc
    | failOpened =>
      cases hs
      exact .failed hpc
    | failNoFile =>
      cases hs
      exact .noFile hpc

theorem pStep_can {s s' : PSys} (hs : pStep s e = some s') :
    s.crashed = none ∧ (s.proc e.thread).life = .alive ∧ (s.proc e.thread).blockedOn = none ∧
      Happens s e s' := by
  obtain ⟨hcan, hs⟩ := Option.ite_none_right_eq_some.mp hs
  exact ⟨hcan.1, hcan.2.1, hcan.2.2, pEvent_happens hs⟩

/-- **Every step**: it leaves to the others what is theirs, or a thread is born. -/
theorem pStep_others {s s' : PSys} (hs : pStep s e = some s') : Others s s' e.thread ∨
      ((s.proc e.thread).pc = .create ∧ s' = s.born e.thread) := by
  obtain ⟨_, _, _, hs⟩ := pStep_can hs
  cases hs with
  | run hs => exact .inl (runStep_others hs)
  | copied | wait => exact .inl (.goto s _ _)
  | created hpc => exact .inr ⟨hpc, rfl⟩
  | noThread => exact .inl (.crash s _ _)
  | noFile =>
    refine .inl (Others.trans (.self s _ ?_) (.crash _ _ _))
    exact fun _ => rfl
  | noCopy | exit | terminate | kill | loaded | failed => exact .inl (.self s _ fun _ => rfl)

end Pintos
