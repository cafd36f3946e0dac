/-
  Subject:   Merging adjacent runs of a list, and what it means for a sort to be stable.

  A pass merges the runs of a list in pairs (`MergePass`): it keeps the order of equivalent elements, and
  halves the number of places where a run ends (`descents`).
-/
import Mathlib.Tactic.Linarith
import Mathlib.Data.List.Chain

namespace Pintos.Lib

open List

variable {α : Type*}

variable (less : α → α → Bool)

/-- A strict weak order. -/
structure StrictWeakOrder : Prop where
  irrefl : ∀ a, less a a = false
  trans : ∀ a b c, less a b = true → less b c = true → less a c = true
  incomp : ∀ a b c, less a b = false → less b a = false → less b c = false → less c b = false →
    less a c = false ∧ less c a = false

/-- Neither is less than the other. -/
def equivalent (a b : α) : Bool := !less a b && !less b a

/-- `b` may stand after `a`. -/
def notAfter (a b : α) : Bool := !less b a

def NonDecreasing (l : List α) : Prop :=
  l.Pairwise fun a b => notAfter less a b = true

/-- **Stably sorted**: for every element, the elements equivalent to it are the same ones, in the
    same order. -/
structure StablySorts (l l' : List α) : Prop where
  perm : l'.Perm l
  sorted : NonDecreasing less l'
  stable : ∀ x, l'.filter (equivalent less x) = l.filter (equivalent less x)

variable {a b x : α} {A B l₂ r : List α}

section Order

variable {less : α → α → Bool} (ho : StrictWeakOrder less)

include ho

theorem StrictWeakOrder.asymm (h : less a b = true) : less b a = false := by
  cases hba : less b a with
  | false => rfl
  | true =>
    have haa := ho.trans a b a h hba
    rw [ho.irrefl] at haa
    cases haa

theorem StrictWeakOrder.notAfter_trans (a b c : α) (hab : notAfter less a b = true)
    (hbc : notAfter less b c = true) : notAfter less a c = true := by
  unfold notAfter at *
  rw [Bool.not_eq_true'] at *
  cases hca : less c a with
  | false => rfl
  | true =>
    cases h : less a b with
    | true =>
      have := ho.trans c a b hca h
      rw [hbc] at this
      cases this
    | false =>
      cases h' : less b c with
      | true =>
        have := ho.trans b c a h' hca
        rw [hab] at this
        cases this
      | false =>
        have := (ho.incomp a b c h hab h' hbc).2
        rw [hca] at this
        cases this

theorem StrictWeakOrder.notAfter_total (a b : α) :
    (notAfter less a b || notAfter less b a) = true := by
  unfold notAfter
  cases h : less b a with
  | false => rfl
  | true =>
    rw [ho.asymm h]
    rfl

/-- What is less than the first element of a sorted list is equivalent to none of its elements. -/
theorem StrictWeakOrder.filter_nil (hA : NonDecreasing less (a :: A)) (hba : less b a = true)
    (hxb : equivalent less x b = true) : (a :: A).filter (equivalent less x) = [] := by
  refine filter_eq_nil_iff.mpr fun y hy hxy => ?_
  have hay : notAfter less a y = true := by
    rcases mem_cons.mp hy with rfl | hy
    · unfold notAfter
      rw [ho.irrefl]
      rfl
    · exact (pairwise_cons.mp hA).1 y hy
  -- `b < a ≤ y`, so `b < y`, though both are equivalent to `x`
  simp only [equivalent, Bool.and_eq_true, Bool.not_eq_true'] at hxb hxy
  have hby : less b y = false := (ho.incomp b x y hxb.2 hxb.1 hxy.1 hxy.2).1
  have hya : notAfter less y b = true := by
    unfold notAfter
    rw [hby]
    rfl
  have hab := ho.notAfter_trans a y b hay hya
  unfold notAfter at hab
  rw [hba] at hab
  cases hab

/-- **Merging is stable.** -/
theorem StrictWeakOrder.filter_merge (x : α) (A B : List α) (hA : NonDecreasing less A) :
    (A.merge B (notAfter less)).filter (equivalent less x) =
      A.filter (equivalent less x) ++ B.filter (equivalent less x) := by
  induction A generalizing B with
  | nil => rw [List.nil_merge, List.filter_nil, List.nil_append]
  | cons a A ihA =>
    induction B with
    | nil => rw [List.merge_right, List.filter_nil, List.append_nil]
    | cons b B ihB =>
      rw [cons_merge_cons]
      by_cases h : notAfter less a b = true
      · rw [if_pos h, filter_cons (x := a), ihA _ (pairwise_cons.mp hA).2,
          filter_cons (x := a)]
        split <;> rfl
      · rw [if_neg h, filter_cons, ihB, filter_cons (x := b)]
        have hba : less b a = true := by simpa [notAfter] using h
        by_cases hxb : equivalent less x b = true
        · rw [if_pos hxb, if_pos hxb, ho.filter_nil hA hba hxb]
          rfl
        · rw [if_neg hxb, if_neg hxb]

theorem StrictWeakOrder.merge_sorted (hA : NonDecreasing less A) (hB : NonDecreasing less B) :
    NonDecreasing less (A.merge B (notAfter less)) :=
  pairwise_merge ho.notAfter_trans ho.notAfter_total A B hA hB

end Order

/-! ## Runs -/

section Runs

variable (less : α → α → Bool)

/-- The first run of `a :: l`, and what follows it. -/
def takeRun : α → List α → List α × List α
  | a, [] => ([a], [])
  | a, b :: l =>
    if less b a then ([a], b :: l)
    else ((a :: (takeRun b l).1), (takeRun b l).2)

/-- The number of places where an element is less than the one before it. -/
def descents : List α → ℕ
  | [] => 0
  | [_] => 0
  | a :: b :: l => (if less b a then 1 else 0) + descents (b :: l)

/-- **One pass**: runs are merged in pairs, and a last single one stays; `n` runs come out. -/
inductive MergePass : List α → List α → ℕ → Prop
  | nil : MergePass [] [] 0
  | single {a : α} {l r : List α} : takeRun less a l = (r, []) → MergePass (a :: l) (a :: l) 1
  | pair {a b : α} {l r₁ l₂ r₂ l₃ l' : List α} {n : ℕ} : takeRun less a l = (r₁, b :: l₂) →
      takeRun less b l₂ = (r₂, l₃) → MergePass l₃ l' n →
      MergePass (a :: l) (r₁.merge r₂ (notAfter less) ++ l') (n + 1)

theorem takeRun_append (a : α) (l : List α) :
    (takeRun less a l).1 ++ (takeRun less a l).2 = a :: l := by
  induction l generalizing a with
  | nil => rfl
  | cons b l ih =>
    unfold takeRun
    split
    · rfl
    · rw [cons_append, ih b]

theorem takeRun_head (a : α) (l : List α) : ∃ r, (takeRun less a l).1 = a :: r := by
  cases l with
  | nil => exact ⟨[], rfl⟩
  | cons b l =>
    unfold takeRun
    split
    · exact ⟨[], rfl⟩
    · exact ⟨_, rfl⟩

theorem takeRun_chain (a : α) (l : List α) :
    (takeRun less a l).1.IsChain fun a b => notAfter less a b = true := by
  induction l generalizing a with
  | nil => exact .singleton a
  | cons b l ih =>
    unfold takeRun
    split
    · exact .singleton a
    · rename_i h
      obtain ⟨r, hr⟩ := takeRun_head less b l
      have hb := ih b
      rw [hr] at hb ⊢
      exact .cons_cons (by simpa [notAfter] using h) hb

/-- **A run ends at a descent.** -/
theorem takeRun_descents (a : α) (l : List α) : descents less (a :: l) =
      if (takeRun less a l).2 = [] then 0 else descents less (takeRun less a l).2 + 1 := by
  induction l generalizing a with
  | nil => rfl
  | cons b l ih =>
    show (if less b a = true then 1 else 0) + descents less (b :: l) = _
    unfold takeRun
    split
    · rw [if_neg (cons_ne_nil _ _), Nat.add_comm]
    · rw [Nat.zero_add]
      exact ih b

variable {less}

theorem descents_append (hr : r.IsChain fun a b => notAfter less a b = true) (l : List α) :
    descents less (r ++ l) ≤ descents less l + 1 := by
  induction hr with
  | nil => exact Nat.le_succ _
  | singleton a =>
    cases l with
    | nil => exact Nat.zero_le _
    | cons b l =>
      show (if _ then 1 else 0) + descents less (b :: l) ≤ _
      split <;> omega
  | @cons_cons a b r hab _ ih =>
    have hba : less b a = false := by simpa [notAfter] using hab
    show (if less b a = true then 1 else 0) + descents less (b :: r ++ l) ≤ _
    rw [hba, if_neg Bool.false_ne_true, Nat.zero_add]
    exact ih

variable {l : List α}

theorem descents_chain (h : l.IsChain fun a b => notAfter less a b = true) :
    descents less l = 0 := by
  induction h with
  | nil => rfl
  | singleton a => rfl
  | @cons_cons a b l hab _ ih =>
    have hba : less b a = false := by simpa [notAfter] using hab
    unfold descents
    rw [hba, if_neg Bool.false_ne_true, Nat.zero_add]
    exact ih

theorem chain_of_descents (h : descents less l = 0) :
    l.IsChain fun a b => notAfter less a b = true := by
  induction l with
  | nil => exact .nil
  | cons a l ih =>
    cases l with
    | nil => exact .singleton a
    | cons b l =>
      unfold descents at h
      have hba : less b a = false := by
        cases hba : less b a with
        | false => rfl
        | true =>
          rw [hba, if_pos rfl] at h
          omega
      exact .cons_cons (by simp [notAfter, hba]) (ih (by omega))

theorem descents_lt_length (h : l ≠ []) : descents less l < l.length := by
  induction l with
  | nil => exact absurd rfl h
  | cons a l ih =>
    cases l with
    | nil => exact Nat.one_pos
    | cons b l =>
      have hb := ih (cons_ne_nil b l)
      unfold descents
      rw [length_cons]
      split <;> omega

theorem StrictWeakOrder.nonDecreasing_of_chain (ho : StrictWeakOrder less)
    (h : l.IsChain fun a b => notAfter less a b = true) : NonDecreasing less l := by
  have htrans : Trans (fun a b => notAfter less a b = true) (fun a b => notAfter less a b = true)
      (fun a b => notAfter less a b = true) := ⟨fun hab hbc => ho.notAfter_trans _ _ _ hab hbc⟩
  exact isChain_iff_pairwise.mp h

theorem takeRun_sorted (ho : StrictWeakOrder less) (h : takeRun less a l = (r, l₂)) :
    NonDecreasing less r := by
  have hc := takeRun_chain less a l
  rw [h] at hc
  exact ho.nonDecreasing_of_chain hc

theorem takeRun_eq (h : takeRun less a l = (r, l₂)) : a :: l = r ++ l₂ := by
  have happ := takeRun_append less a l
  rw [h] at happ
  exact happ.symm

namespace MergePass

variable {l l' : List α} {n : ℕ}

theorem perm (h : MergePass less l l' n) : l'.Perm l := by
  induction h with
  | nil => exact .refl _
  | single _ => exact .refl _
  | @pair a b l r₁ l₂ r₂ l₃ l' n h1 h2 _ ih =>
    rw [takeRun_eq h1, takeRun_eq h2, ← append_assoc]
    exact (merge_perm_append _).append ih

/-- **A pass keeps the order of equivalent elements.** -/
theorem stable (ho : StrictWeakOrder less) (h : MergePass less l l' n) (x : α) :
    l'.filter (equivalent less x) = l.filter (equivalent less x) := by
  induction h with
  | nil => rfl
  | single _ => rfl
  | @pair a b l r₁ l₂ r₂ l₃ l' n h1 h2 _ ih =>
    rw [takeRun_eq h1, takeRun_eq h2, filter_append, ih,
      ho.filter_merge x r₁ r₂ (takeRun_sorted ho h1), filter_append, filter_append,
      append_assoc]

/-- A list with `d` descents has `d + 1` runs, and every two of them give one. -/
theorem count (h : MergePass less l l' n) : l ≠ [] → n = descents less l / 2 + 1 := by
  induction h with
  | nil => exact fun hne => absurd rfl hne
  | @single a l r h1 =>
    intro _
    rw [takeRun_descents, h1, if_pos rfl]
  | @pair a b l r₁ l₂ r₂ l₃ l' n h1 h2 hp ih =>
    intro _
    have hd1 := takeRun_descents less a l
    have hd2 := takeRun_descents less b l₂
    rw [h1, if_neg (cons_ne_nil _ _)] at hd1
    rw [h2] at hd2
    cases l₃ with
    | nil =>
      cases hp
      rw [if_pos rfl] at hd2
      simp only at hd1
      rw [hd1, hd2]
    | cons c l₃ =>
      rw [if_neg (cons_ne_nil _ _)] at hd2
      have hn := ih (cons_ne_nil _ _)
      simp only at hd1 hd2
      rw [hn, hd1, hd2]
      omega

/-- **What comes out is `n` runs in a row.** -/
theorem descents_le (ho : StrictWeakOrder less) (h : MergePass less l l' n) :
    descents less l' ≤ n - 1 := by
  induction h with
  | nil => exact Nat.le_refl 0
  | @single a l r h1 =>
    rw [takeRun_descents, h1, if_pos rfl]
  | @pair a b l r₁ l₂ r₂ l₃ l' n h1 h2 hp ih =>
    have hs := ho.merge_sorted (takeRun_sorted ho h1) (takeRun_sorted ho h2)
    have hc : (r₁.merge r₂ (notAfter less)).IsChain fun a b => notAfter less a b = true :=
      hs.isChain
    have hadd := descents_append hc l'
    cases hp with
    | nil => rw [append_nil, descents_chain hc]
    | single _ => omega
    | pair _ _ _ => omega

end MergePass

end Runs

end Pintos.Lib
