/-
  Subject:   Programs over a shared state that may stop with an error and may be switched away from
             at named places.

  A program is a tree: it reads the state, stores a state, stops with an error, returns a value, or
  comes to a PAUSE. A pause carries a label and the condition under which the program can go on;
  between two pauses nothing else runs.

  * `run`: the program alone. A pause whose condition does not hold waits for ever, since nobody else
    is there to change the state.
  * `Runs m s Q`: `m`, alone in `s`, RETURNS, and its value and its state meet `Q`; so a proof of
    `Runs` is also a proof that no error and no endless wait was met on the way. Each construct has an
    equation for `simp`.
  * `settle`, `resume`: the program among others, from one pause to the next.
-/
import Mathlib.Tactic.Linarith

namespace Pintos.Lib

/-- Programs over the state `σ` with pauses `ι`, errors `ε` and result `α`. -/
inductive Prog (ι σ ε α : Type) where
  | ret (a : α)
  | stop (e : ε)
  | get (k : σ → Prog ι σ ε α)
  | put (s : σ) (k : Prog ι σ ε α)
  | pause (l : ι) (ready : σ → Bool) (k : Prog ι σ ε α)

/-- Why a program alone does not return. -/
inductive Halt (ε : Type) where
  | stopped (e : ε)
  | waits
  deriving DecidableEq, Repr

namespace Prog

variable {ι σ ε α β : Type}

def bind : Prog ι σ ε α → (α → Prog ι σ ε β) → Prog ι σ ε β
  | ret a, f => f a
  | stop e, _ => stop e
  | get k, f => get fun s => (k s).bind f
  | put s k, f => put s (k.bind f)
  | pause l ready k, f => pause l ready (k.bind f)

instance : Monad (Prog ι σ ε) where
  pure := ret
  bind := bind

instance : MonadStateOf σ (Prog ι σ ε) where
  get := get ret
  set s := put s (ret ⟨⟩)
  modifyGet f := get fun s => put (f s).2 (ret (f s).1)

theorem bind_assoc {γ : Type} (m : Prog ι σ ε α) (f : α → Prog ι σ ε β) (g : β → Prog ι σ ε γ) :
    (m.bind f).bind g = m.bind fun a => (f a).bind g := by
  induction m with
  | ret a => rfl
  | stop e => rfl
  | get k ih => exact congrArg get (funext fun s => ih s)
  | put s k ih => exact congrArg (put s) ih
  | pause l ready k ih => exact congrArg (pause l ready) ih

theorem bind_ret (m : Prog ι σ ε α) : m.bind ret = m := by
  induction m with
  | ret a => rfl
  | stop e => rfl
  | get k ih => exact congrArg get (funext fun s => ih s)
  | put s k ih => exact congrArg (put s) ih
  | pause l ready k ih => exact congrArg (pause l ready) ih

instance : LawfulMonad (Prog ι σ ε) := LawfulMonad.mk' _ bind_ret (fun _ _ => rfl) bind_assoc

/-- A place where the program can be switched away from and always goes on. -/
def yieldAt (l : ι) : Prog ι σ ε Unit := pause l (fun _ => true) (ret ())

/-- A place where the program waits for a condition. -/
def await (l : ι) (ready : σ → Bool) : Prog ι σ ε Unit := pause l ready (ret ())

/-- The program alone. -/
def run : Prog ι σ ε α → σ → Except (Halt ε) (α × σ)
  | ret a, s => .ok (a, s)
  | stop e, _ => .error (.stopped e)
  | get k, s => (k s).run s
  | put s k, _ => k.run s
  | pause _ ready k, s => if ready s then k.run s else .error .waits

/-- The program up to its next pause, its end included. -/
def settle : Prog ι σ ε α → σ → Except ε (Prog ι σ ε α × σ)
  | ret a, s => .ok (ret a, s)
  | stop e, _ => .error e
  | get k, s => (k s).settle s
  | put s k, _ => k.settle s
  | pause l ready k, s => .ok (pause l ready k, s)

/-- The program goes on from the pause it is at, if it can. -/
def resume : Prog ι σ ε α → σ → Option (Except ε (Prog ι σ ε α × σ))
  | pause _ ready k, s => if ready s then some (k.settle s) else none
  | _, _ => none

theorem run_bind (m : Prog ι σ ε α) (f : α → Prog ι σ ε β) (s : σ) :
    (m.bind f).run s = (m.run s).bind fun r => (f r.1).run r.2 := by
  induction m generalizing s with
  | ret a => rfl
  | stop e => rfl
  | get k ih => exact ih s s
  | put s' k ih => exact ih s'
  | pause l ready k ih =>
    show (if ready s then (k.bind f).run s else .error .waits) =
      (if ready s then k.run s else .error .waits).bind fun r => (f r.1).run r.2
    rw [ih s]
    split <;> rfl

variable {m m' : Prog ι σ ε α} {f : α → Prog ι σ ε β} {s s' : σ}

/-- A first part with a known result. -/
theorem run_bind_ok {a : α} (h : m.run s = .ok (a, s')) : (m >>= f).run s = (f a).run s' := by
  have hb : (m >>= f).run s = (m.run s).bind fun r => (f r.1).run r.2 := run_bind m f s
  rw [hb, h]
  rfl

theorem run_bind_inv {m : Prog ι σ ε α} {f : α → Prog ι σ ε β} {s s' : σ} {b : β}
    (h : (m >>= f).run s = .ok (b, s')) :
    ∃ a s₁, m.run s = .ok (a, s₁) ∧ (f a).run s₁ = .ok (b, s') := by
  cases hm : m.run s with
  | ok r => exact ⟨r.1, r.2, rfl, (run_bind_ok hm).symm.trans h⟩
  | error e =>
    rw [show (m >>= f).run s = .error e from (run_bind m f s).trans (by rw [hm]; rfl)] at h
    cases h

theorem run_bind_error {e : Halt ε} (h : m.run s = .error e) : (m >>= f).run s = .error e := by
  have hb : (m >>= f).run s = (m.run s).bind fun r => (f r.1).run r.2 := run_bind m f s
  rw [hb, h]
  rfl

theorem run_map_error {m : Prog ι σ ε α} {f : α → β} {s : σ} {e : Halt ε} (h : m.run s = .error e) :
    (f <$> m).run s = .error e :=
  run_bind_error (f := fun a => pure (f a)) h

/-- **A stretch between two pauses is part of the run alone.** -/
theorem settle_run (h : m.settle s = .ok (m', s')) : m'.run s' = m.run s := by
  induction m generalizing s with
  | ret a => cases h; rfl
  | stop e => cases h
  | get k ih => exact ih s h
  | put s₁ k ih => exact ih h
  | pause l ready k ih => cases h; rfl

theorem resume_run (h : m.resume s = some (.ok (m', s'))) : m'.run s' = m.run s := by
  cases m with
  | pause l ready k =>
    by_cases hr : ready s = true
    · have hk : k.settle s = .ok (m', s') := by simpa [resume, hr] using h
      rw [settle_run hk]
      exact (if_pos hr).symm
    · simp [resume, hr] at h
  | _ => cases h

end Prog

/-- `m` returns from `s`, and `Q` holds of its value and its state. -/
def Runs {ι σ ε α : Type} (m : Prog ι σ ε α) (s : σ) (Q : α → σ → Prop) : Prop :=
  ∃ a s', m.run s = .ok (a, s') ∧ Q a s'

section Rules

variable {ι σ ε α β : Type} {s : σ} {Q : α → σ → Prop}

@[simp]
theorem runs_pure {a : α} : Runs (pure a : Prog ι σ ε α) s Q ↔ Q a s := by
  constructor
  · intro h
    obtain ⟨b, s', he, hq⟩ := h
    cases he
    exact hq
  · intro hq
    exact ⟨a, s, rfl, hq⟩

@[simp]
theorem runs_bind {m : Prog ι σ ε β} {f : β → Prog ι σ ε α} :
    Runs (m >>= f) s Q ↔ Runs m s (fun b s' => Runs (f b) s' Q) := by
  have hb : (m >>= f).run s = (m.run s).bind fun r => (f r.1).run r.2 := Prog.run_bind m f s
  unfold Runs
  rw [hb]
  cases hm : m.run s with
  | error e => simp [Except.bind]
  | ok r =>
    constructor
    · intro h
      exact ⟨r.1, r.2, rfl, h⟩
    · intro h
      obtain ⟨b, s', he, hq⟩ := h
      cases he
      exact hq

@[simp]
theorem runs_map {m : Prog ι σ ε β} {f : β → α} :
    Runs (f <$> m) s Q ↔ Runs m s fun b s' => Q (f b) s' := by
  show Runs (m >>= fun b => pure (f b)) s Q ↔ _
  simp only [runs_bind, runs_pure]

@[simp]
theorem runs_get {Q : σ → σ → Prop} : Runs (get : Prog ι σ ε σ) s Q ↔ Q s s :=
  runs_pure (ι := ι) (ε := ε)

@[simp]
theorem runs_set {s₁ : σ} {Q : PUnit → σ → Prop} :
    Runs (set s₁ : Prog ι σ ε PUnit) s Q ↔ Q ⟨⟩ s₁ := by
  constructor
  · intro h
    obtain ⟨_, _, he, hq⟩ := h
    cases he
    exact hq
  · intro hq
    exact ⟨⟨⟩, s₁, rfl, hq⟩

@[simp]
theorem runs_modify {f : σ → σ} {Q : PUnit → σ → Prop} :
    Runs (modify f : Prog ι σ ε PUnit) s Q ↔ Q ⟨⟩ (f s) :=
  runs_set (ι := ι) (s := s)

@[simp]
theorem runs_await {l : ι} {ready : σ → Bool} {Q : Unit → σ → Prop} :
    Runs (Prog.await l ready : Prog ι σ ε Unit) s Q ↔ ready s = true ∧ Q () s := by
  unfold Runs Prog.await Prog.run
  split
  · rename_i hr
    simp only [hr, true_and]
    exact runs_pure (ε := ε) (ι := ι)
  · rename_i hr
    simp [hr]

@[simp]
theorem runs_yieldAt {l : ι} {Q : Unit → σ → Prop} :
    Runs (Prog.yieldAt l : Prog ι σ ε Unit) s Q ↔ Q () s :=
  runs_pure (ε := ε) (ι := ι)

@[simp]
theorem runs_stop {e : ε} : ¬ Runs (Prog.stop e : Prog ι σ ε α) s Q := by
  intro h
  obtain ⟨_, _, he, _⟩ := h
  cases he

@[simp]
theorem runs_ite {c : Prop} [Decidable c] {m m' : Prog ι σ ε α} :
    Runs (if c then m else m') s Q ↔ if c then Runs m s Q else Runs m' s Q := by
  split <;> rfl

/-- **Consequence.** -/
theorem Runs.mono {m : Prog ι σ ε α} {P : α → σ → Prop} (h : Runs m s P)
    (hq : ∀ a s', P a s' → Q a s') : Runs m s Q := by
  obtain ⟨a, s', he, hp⟩ := h
  exact ⟨a, s', he, hq a s' hp⟩

/-- A program that returns has one result, which meets every specification it runs under. -/
theorem Runs.result {m : Prog ι σ ε α} {a : α} {s' : σ} (h : Runs m s Q)
    (he : m.run s = .ok (a, s')) : Q a s' := by
  obtain ⟨b, t, hb, hq⟩ := h
  rw [hb] at he
  cases he
  exact hq

theorem runs_of_run {m : Prog ι σ ε α} {a : α} {s' : σ} (he : m.run s = .ok (a, s')) :
    Runs m s Q ↔ Q a s' := by
  constructor
  · intro h
    exact h.result he
  · intro hq
    exact ⟨a, s', he, hq⟩

theorem Runs.run_eq {m : Prog ι σ ε α} {a : α} {s' : σ}
    (h : Runs m s fun b t => b = a ∧ t = s') : m.run s = .ok (a, s') := by
  obtain ⟨b, t, he, rfl, rfl⟩ := h
  exact he

end Rules

end Pintos.Lib
