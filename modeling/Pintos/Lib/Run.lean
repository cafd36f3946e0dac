/-
  Subject:   Runs of a machine given by a partial step function.

  A machine is `m : σ → ε → Option σ`: in state `s` the event `e` leads to at most one next
  state, and `none` says that the event cannot happen there. Which events happen, and in which
  order, is left open; a statement over every run is a statement over every order of events.

  `Reach m ok s₀ s`: some sequence of events leads from `s₀` to `s`, each of them taken in a state where
  the side condition `ok` admits it (`fun _ _ => True` for the bare machine).
-/
import Mathlib.Tactic.Linarith

namespace Pintos.Lib

variable {σ ε : Type*}

/-- One admitted step of the machine. -/
def StepIf (m : σ → ε → Option σ) (ok : σ → ε → Prop) (s s' : σ) : Prop :=
  ∃ e, ok s e ∧ m s e = some s'

/-- `s` is reached from `s₀` by admitted steps. -/
def Reach (m : σ → ε → Option σ) (ok : σ → ε → Prop) (s₀ s : σ) : Prop :=
  Relation.ReflTransGen (StepIf m ok) s₀ s

/-- The side condition that admits every event. -/
def always (_ : σ) (_ : ε) : Prop := True

variable {s s' s₀ s₁ s₂ : σ} {I goal : σ → Prop}

section Reach

variable {m : σ → ε → Option σ} {ok : σ → ε → Prop}

theorem Reach.start (s : σ) : Reach m ok s s := Relation.ReflTransGen.refl

theorem Reach.step {e : ε} (h : Reach m ok s₀ s) (ho : ok s e) (hs : m s e = some s') :
    Reach m ok s₀ s' :=
  Relation.ReflTransGen.tail h ⟨e, ho, hs⟩

theorem Reach.trans (h1 : Reach m ok s₀ s₁) (h2 : Reach m ok s₁ s₂) : Reach m ok s₀ s₂ :=
  Relation.ReflTransGen.trans h1 h2

/-- **The invariant rule**: what holds at the start and survives every admitted step holds in
    every state reached. -/
theorem Reach.invariant (h : Reach m ok s₀ s) (h0 : I s₀)
    (hk : ∀ s e s', I s → ok s e → m s e = some s' → I s') : I s := by
  induction h with
  | refl => exact h0
  | tail _ hst ih =>
    obtain ⟨e, ho, hs⟩ := hst
    exact hk _ e _ ih ho hs

/-- **The progress rule**: if from every state of `I` some admitted step leads to the goal, or to a
    state of `I` with a smaller measure, the goal can be reached from all of `I`. -/
theorem Reach.progress (μ : σ → Nat)
    (hk : ∀ s, I s → ∃ e s', ok s e ∧ m s e = some s' ∧ (goal s' ∨ (I s' ∧ μ s' < μ s)))
    (hs : I s) : ∃ s', Reach m ok s s' ∧ goal s' := by
  induction hn : μ s using Nat.strongRecOn generalizing s with
  | _ n ih =>
    subst hn
    obtain ⟨e, s₁, ho, hm, hnext⟩ := hk s hs
    have hstep : Reach m ok s s₁ := (Reach.start s).step ho hm
    rcases hnext with hgoal | ⟨h1, hlt⟩
    · exact ⟨s₁, hstep, hgoal⟩
    · obtain ⟨s', hr, hgoal⟩ := ih (μ s₁) hlt h1 rfl
      exact ⟨s', hstep.trans hr, hgoal⟩

/-- Fewer admitted events, fewer runs. -/
theorem Reach.mono {ok' : σ → ε → Prop} (hok : ∀ s e, ok s e → ok' s e) (h : Reach m ok s₀ s) :
    Reach m ok' s₀ s :=
  h.invariant (.start s₀) fun _ _ _ hr ho hs => hr.step (hok _ _ ho) hs

end Reach

/-- The state after a list of events, in order. -/
def runList (m : σ → ε → Option σ) : σ → List ε → Option σ
  | s, [] => some s
  | s, e :: es => (m s e).bind fun s' => runList m s' es

variable {m : σ → ε → Option σ} {ok : σ → ε → Prop}

theorem reach_runList :
    ∀ {s₀ : σ} (es : List ε), (∀ s, ∀ e ∈ es, ok s e) → runList m s₀ es = some s →
    Reach m ok s₀ s
  | s₀, [], _, h => by
    cases h
    exact .start _
  | s₀, e :: es, hok, h => by
    obtain ⟨s₁, hs, hr⟩ := Option.bind_eq_some_iff.mp h
    have hstep : Reach m ok s₀ s₁ := (Reach.start s₀).step (hok s₀ e List.mem_cons_self) hs
    exact hstep.trans (reach_runList es (fun s e he => hok s e (List.mem_cons_of_mem _ he)) hr)

/-- The machine that refuses the events its side condition does not admit. -/
def stepIf (m : σ → ε → Option σ) (ok : σ → ε → Prop) [∀ s e, Decidable (ok s e)] (s : σ) (e : ε) :
    Option σ :=
  if ok s e then m s e else none

/-- A list of events that goes through that machine is an admitted run. -/
theorem reach_runIf [∀ s e, Decidable (ok s e)] :
    ∀ {s₀ : σ} (es : List ε), runList (stepIf m ok) s₀ es = some s → Reach m ok s₀ s
  | s₀, [], h => by
    cases h
    exact .start _
  | s₀, e :: es, h => by
    obtain ⟨s₁, hs, hr⟩ := Option.bind_eq_some_iff.mp h
    unfold stepIf at hs
    split at hs
    · rename_i hok
      exact ((Reach.start s₀).step hok hs).trans (reach_runIf es hr)
    · cases hs

end Pintos.Lib
