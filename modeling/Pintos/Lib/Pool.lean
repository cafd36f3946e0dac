/-
  Subject:   Threads that run programs with pauses over one state, in any interleaving.

  A call starts and runs up to its first pause; then any call that is at a pause and can go on may run
  up to its next one. What has returned is logged.

  * `Pool.serial`: if a call starts only when no other is under way, then what every call ALONE keeps,
    of the state and the log, holds whenever none is under way.
  * `Prog.Within R`: every stretch of the program between two pauses changes the state as `R` says,
    whatever the state is in which it goes on after a pause. `Prog.Within.settle` and `Prog.Within.resume` are
    the steps of the machine.
-/
import Pintos.Lib.Prog
import Pintos.Lib.Run

namespace Pintos.Lib

/-! ## 1. The machine -/

structure Pool (κ ι σ ε α : Type) where
  state : σ
  /-- The calls under way, each with what is left of it. -/
  active : List (κ × Prog ι σ ε α)
  /-- The calls that have returned, in order. -/
  log : List (κ × α)

inductive PoolEvent (κ : Type) where
  | start (c : κ)
  | go (i : ℕ)

section Pool

variable {κ ι σ ε α : Type} {prog : κ → Prog ι σ ε α}

/-- A call that has come to a pause, or to its end. -/
def Pool.arrive (s : σ) (c : κ) (under : Prog ι σ ε α → List (κ × Prog ι σ ε α))
    (rest : List (κ × Prog ι σ ε α)) (log : List (κ × α)) : Prog ι σ ε α → Pool κ ι σ ε α
  | .ret a => ⟨s, rest, log ++ [(c, a)]⟩
  | p => ⟨s, under p, log⟩

theorem Pool.arrive_state (s : σ) (c : κ) (under : Prog ι σ ε α → List (κ × Prog ι σ ε α))
    (rest : List (κ × Prog ι σ ε α)) (log : List (κ × α)) (p : Prog ι σ ε α) :
    (Pool.arrive s c under rest log p).state = s := by
  cases p <;> rfl

theorem Pool.arrive_active (s : σ) (c : κ) (under : Prog ι σ ε α → List (κ × Prog ι σ ε α))
    (rest : List (κ × Prog ι σ ε α)) (log : List (κ × α)) (p : Prog ι σ ε α) :
    (∃ a, p = .ret a ∧ (Pool.arrive s c under rest log p).active = rest) ∨
      ((∀ a, p ≠ .ret a) ∧ (Pool.arrive s c under rest log p).active = under p) := by
  cases p with
  | ret a => exact .inl ⟨a, rfl, rfl⟩
  | _ => exact .inr ⟨nofun, rfl⟩

/-- One step. A call that stops with an error stops the machine. -/
def Pool.step (prog : κ → Prog ι σ ε α) (P : Pool κ ι σ ε α) :
    PoolEvent κ → Option (Pool κ ι σ ε α)
  | .start c =>
    match (prog c).settle P.state with
    | .ok (p, s) => some (.arrive s c (fun p => P.active ++ [(c, p)]) P.active P.log p)
    | .error _ => none
  | .go i =>
    match P.active[i]? with
    | none => none
    | some (c, p) =>
      match p.resume P.state with
      | some (.ok (p', s)) =>
        some (.arrive s c (fun p => P.active.set i (c, p)) (P.active.eraseIdx i) P.log p')
      | _ => none

/-- What a step can be. -/
theorem Pool.step_cases {P P' : Pool κ ι σ ε α} {e : PoolEvent κ} (h : P.step prog e = some P') :
    (∃ c p s, e = .start c ∧ (prog c).settle P.state = .ok (p, s) ∧
      P' = .arrive s c (fun p => P.active ++ [(c, p)]) P.active P.log p) ∨
    ∃ i c p p' s, e = .go i ∧ P.active[i]? = some (c, p) ∧ p.resume P.state = some (.ok (p', s)) ∧
      P' = .arrive s c (fun p => P.active.set i (c, p)) (P.active.eraseIdx i) P.log p' := by
  cases e with
  | start c =>
    simp only [Pool.step] at h
    split at h
    · rename_i p s hs
      cases h
      exact .inl ⟨c, p, s, rfl, hs, rfl⟩
    · cases h
  | go i =>
    simp only [Pool.step] at h
    split at h
    · cases h
    · rename_i c p hi
      split at h
      · rename_i p' s hr
        cases h
        exact .inr ⟨i, c, p, p', s, rfl, hi, hr, rfl⟩
      · cases h

end Pool

/-! ## 2. One call at a time -/

section Serial

variable {κ ι σ ε α : Type} {prog : κ → Prog ι σ ε α}
  {ok : Pool κ ι σ ε α → PoolEvent κ → Prop} {I : σ → List (κ × α) → Prop}

/-- Nobody is under way, or one call that has so far done what it does alone. -/
def Pool.Serial (prog : κ → Prog ι σ ε α) (ok : Pool κ ι σ ε α → PoolEvent κ → Prop)
    (I : σ → List (κ × α) → Prop) (P : Pool κ ι σ ε α) : Prop :=
  (P.active = [] ∧ I P.state P.log) ∨
    ∃ c p s, P.active = [(c, p)] ∧ I s P.log ∧ ok ⟨s, [], P.log⟩ (.start c) ∧
      p.run P.state = (prog c).run s

theorem Pool.Serial.arrive (hcall : ∀ s log c a s', I s log → ok ⟨s, [], log⟩ (.start c) →
      (prog c).run s = .ok (a, s') → I s' (log ++ [(c, a)]))
    {s s' : σ} {c : κ} {log : List (κ × α)} (hI : I s log) (hok : ok ⟨s, [], log⟩ (.start c))
    {p : Prog ι σ ε α} (hp : p.run s' = (prog c).run s) {under : Prog ι σ ε α → List (κ × Prog ι σ ε α)}
    (hunder : ∀ q, under q = [(c, q)]) : Pool.Serial prog ok I (.arrive s' c under [] log p) := by
  cases p with
  | ret a => exact .inl ⟨rfl, hcall s log c a s' hI hok hp.symm⟩
  | _ => exact .inr ⟨c, _, s, hunder _, hI, hok, hp⟩

theorem Pool.Serial.step (hserial : ∀ P c, ok P (.start c) → P.active = [])
    (hcall : ∀ s log c a s', I s log → ok ⟨s, [], log⟩ (.start c) →
      (prog c).run s = .ok (a, s') → I s' (log ++ [(c, a)]))
    {P P' : Pool κ ι σ ε α} {e : PoolEvent κ} (h : P.Serial prog ok I) (hok : ok P e)
    (hstep : P.step prog e = some P') : P'.Serial prog ok I := by
  obtain ⟨c, p, s, rfl, hs, rfl⟩ | ⟨i, c, p, p', s, rfl, hi, hr, rfl⟩ := Pool.step_cases hstep
  · have hnil := hserial P c hok
    rcases h with ⟨_, hI⟩ | ⟨c', p', s', hact, _⟩
    · obtain ⟨state, active, log⟩ := P
      cases hnil
      exact .arrive hcall hI hok (Prog.settle_run hs) fun _ => rfl
    · rw [hact] at hnil
      cases hnil
  · rcases h with ⟨hact, _⟩ | ⟨c', q, s', hact, hI, hok', hrun⟩
    · rw [hact] at hi
      cases hi
    · rw [hact] at hi ⊢
      cases i with
      | zero =>
        cases hi
        exact .arrive hcall hI hok' ((Prog.resume_run hr).trans hrun) fun _ => rfl
      | succ i => cases hi

/-- **One call at a time**: what every call alone keeps holds when none is under way. -/
theorem Pool.serial (hserial : ∀ P c, ok P (.start c) → P.active = [])
    (hcall : ∀ s log c a s', I s log → ok ⟨s, [], log⟩ (.start c) →
      (prog c).run s = .ok (a, s') → I s' (log ++ [(c, a)]))
    {s₀ : σ} (h0 : I s₀ []) {P : Pool κ ι σ ε α} (h : Reach (Pool.step prog) ok ⟨s₀, [], []⟩ P)
    (hact : P.active = []) : I P.state P.log := by
  have hinv : P.Serial prog ok I := h.invariant (.inl ⟨rfl, h0⟩) fun _ _ _ hi ho hs =>
    hi.step hserial hcall ho hs
  rcases hinv with ⟨_, hI⟩ | ⟨c, p, s, hne, _⟩
  · exact hI
  · rw [hne] at hact
    cases hact

end Serial

/-! ## 3. What a program may do between its pauses -/

section Within

variable {ι σ ε α β : Type} {R : σ → σ → Prop}

/-- Every stretch of the program, this one from `s`, changes the state as `R` says. -/
def Prog.Within (R : σ → σ → Prop) : Prog ι σ ε α → σ → Prop
  | .ret _, _ => True
  | .stop _, _ => True
  | .get k, s => (k s).Within R s
  | .put s' k, s => R s s' ∧ k.Within R s'
  | .pause _ _ k, _ => ∀ s, k.Within R s

theorem Prog.Within.bind {m : Prog ι σ ε α} {f : α → Prog ι σ ε β} {s : σ} (hm : m.Within R s)
    (hf : ∀ a s, (f a).Within R s) : (m >>= f).Within R s := by
  induction m generalizing s with
  | ret a => exact hf a s
  | stop e => trivial
  | get k ih => exact ih s hm
  | put s' k ih => exact ⟨hm.1, ih hm.2⟩
  | pause l ready k ih => exact fun s => ih (hm s)

theorem Prog.Within.get_bind {f : σ → Prog ι σ ε β} {s : σ} (h : (f s).Within R s) :
    (MonadState.get >>= f : Prog ι σ ε β).Within R s := h

theorem Prog.Within.ite {c : Prop} [Decidable c] {m m' : Prog ι σ ε α} {s : σ} (h : m.Within R s)
    (h' : m'.Within R s) : (if c then m else m').Within R s := by
  split
  · exact h
  · exact h'

theorem Prog.Within.modify {f : σ → σ} {s : σ} (h : R s (f s)) :
    (modify f : Prog ι σ ε PUnit).Within R s := ⟨h, trivial⟩

theorem Prog.Within.await {l : ι} {ready : σ → Bool} {s : σ} :
    (Prog.await l ready : Prog ι σ ε Unit).Within R s := fun _ => trivial

theorem Prog.Within.settle (hrefl : ∀ s, R s s) (htrans : ∀ a b c, R a b → R b c → R a c)
    {m m' : Prog ι σ ε α} {s s' : σ} (h : m.Within R s) (hs : m.settle s = .ok (m', s')) :
    R s s' ∧ ∀ s, m'.Within R s := by
  induction m generalizing s with
  | ret a =>
    cases hs
    exact ⟨hrefl _, fun _ => trivial⟩
  | stop e => cases hs
  | get k ih => exact ih s h hs
  | put s₁ k ih =>
    obtain ⟨hR, hW⟩ := ih h.2 hs
    exact ⟨htrans _ _ _ h.1 hR, hW⟩
  | pause l ready k ih =>
    cases hs
    exact ⟨hrefl _, fun _ => h⟩

theorem Prog.Within.resume (hrefl : ∀ s, R s s) (htrans : ∀ a b c, R a b → R b c → R a c)
    {m m' : Prog ι σ ε α} {s s' : σ} (h : ∀ s, m.Within R s)
    (hs : m.resume s = some (.ok (m', s'))) : R s s' ∧ ∀ s, m'.Within R s := by
  cases m with
  | pause l ready k =>
    by_cases hr : ready s = true
    · have hk : k.settle s = .ok (m', s') := by simpa [Prog.resume, hr] using hs
      exact Prog.Within.settle hrefl htrans (h s s) hk
    · simp [Prog.resume, hr] at hs
  | _ => cases hs

end Within

end Pintos.Lib
