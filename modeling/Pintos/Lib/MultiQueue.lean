/-
  Subject:   Families of FIFO queues, every element filed under a key.

  A family of queues is `q : ι → List α`. An element is FILED when it sits in the queue of its
  key only, and once (`Filed`); `Queued q a` says that it sits in some queue at all. The
  operations are the ones an intrusive list offers: `push` appends to one queue, `remove` takes an
  element out of whichever queue holds it. `highest` is the search for the last non-empty queue
  below a bound. `flat` are the contents of the first queues, up to order.
-/
import Mathlib.Tactic.Linarith
import Mathlib.Data.List.Nodup
import Mathlib.Data.List.Range

namespace Pintos.Lib

open Function List

variable {ι α : Type*} [DecidableEq ι] [DecidableEq α]

/-- Append `a` to queue `i`. -/
def push (q : ι → List α) (i : ι) (a : α) : ι → List α :=
  update q i (q i ++ [a])

/-- Take `a` out of whichever queue holds it. -/
def remove (q : ι → List α) (a : α) : ι → List α := fun i => (q i).erase a

/-- `a` sits in some queue of the family. -/
def Queued (q : ι → List α) (a : α) : Prop := ∃ i, a ∈ q i

/-- Every queued element sits in the queue of its key, once. -/
structure Filed (q : ι → List α) (key : α → ι) : Prop where
  key_eq : ∀ {i a}, a ∈ q i → key a = i
  nodup : ∀ i, (q i).Nodup

/-! ## 1. What the operations do to membership -/

omit [DecidableEq α] in
@[simp] theorem push_self (q : ι → List α) (i : ι) (a : α) : push q i a i = q i ++ [a] := by
  simp [push]

omit [DecidableEq α] in
theorem push_ne (q : ι → List α) {i j : ι} (a : α) (h : j ≠ i) : push q i a j = q j := by
  simp [push, h]

omit [DecidableEq α] in
theorem mem_push {q : ι → List α} {i j : ι} {a b : α} :
    b ∈ push q i a j ↔ b ∈ q j ∨ (b = a ∧ j = i) := by
  by_cases h : j = i
  · subst h
    simp
  · simp [push_ne q a h, h]

omit [DecidableEq α] in
theorem queued_push {q : ι → List α} {i : ι} {a b : α} :
    Queued (push q i a) b ↔ Queued q b ∨ b = a := by
  simp only [Queued, mem_push]
  constructor
  · rintro ⟨j, h | ⟨h, _⟩⟩
    · exact .inl ⟨j, h⟩
    · exact .inr h
  · rintro (⟨j, h⟩ | h)
    · exact ⟨j, .inl h⟩
    · exact ⟨i, .inr ⟨h, rfl⟩⟩

omit [DecidableEq ι] in
theorem Filed.mem_remove {q : ι → List α} {key : α → ι} (hf : Filed q key) {j : ι} {a b : α} :
    b ∈ remove q a j ↔ b ≠ a ∧ b ∈ q j :=
  (hf.nodup j).mem_erase_iff

omit [DecidableEq ι] in
theorem Filed.queued_remove {q : ι → List α} {key : α → ι} (hf : Filed q key) {a b : α} :
    Queued (remove q a) b ↔ b ≠ a ∧ Queued q b := by
  simp only [Queued, hf.mem_remove]
  exact exists_and_left

variable {q : ι → List α} {key key' : α → ι}

omit [DecidableEq ι] [DecidableEq α] in
theorem Filed.mem_key (hf : Filed q key) {a : α} (h : Queued q a) : a ∈ q (key a) := by
  obtain ⟨i, hi⟩ := h
  rw [hf.key_eq hi]
  exact hi

/-- A filed element occurs once in the queue of its key and in no other queue. -/
theorem Filed.count_eq {q : ι → List α} {key : α → ι} (hf : Filed q key) {a : α}
    (h : Queued q a) (i : ι) : (q i).count a = if i = key a then 1 else 0 := by
  by_cases hi : i = key a
  · subst hi
    rw [if_pos rfl]
    exact count_eq_one_of_mem (hf.nodup _) (hf.mem_key h)
  · rw [if_neg hi]
    exact count_eq_zero_of_not_mem fun hm => hi (hf.key_eq hm).symm

theorem Filed.remove_eq {q : ι → List α} {key : α → ι} (hf : Filed q key) {i : ι} {a : α}
    {A B : List α} (hq : q i = A ++ a :: B) : remove q a = update q i (A ++ B) := by
  have ha : a ∈ q i := hq ▸ mem_append_right A mem_cons_self
  funext j
  by_cases hj : j = i
  · subst hj
    have hnd := hf.nodup j
    rw [hq] at hnd
    have hA : a ∉ A := fun hm => disjoint_of_nodup_append hnd hm mem_cons_self
    rw [update_self]
    show (q j).erase a = A ++ B
    rw [hq, erase_append_right _ hA, erase_cons_head]
  · rw [update_of_ne hj]
    exact erase_of_not_mem fun hm => hj ((hf.key_eq hm).symm.trans (hf.key_eq ha))

/-! ## 2. The operations keep the elements filed -/

omit [DecidableEq ι] [DecidableEq α] in
theorem filed_empty (key : α → ι) : Filed (fun _ : ι => ([] : List α)) key where
  key_eq h := absurd h not_mem_nil
  nodup _ := nodup_nil

omit [DecidableEq ι] [DecidableEq α] in
theorem Filed.congr (hf : Filed q key) (h : ∀ a, Queued q a → key' a = key a) : Filed q key' where
  key_eq {i a} hm := (h a ⟨i, hm⟩).trans (hf.key_eq hm)
  nodup := hf.nodup

omit [DecidableEq α] in
theorem Filed.push {q : ι → List α} {key : α → ι} (hf : Filed q key) {a : α}
    (ha : ¬ Queued q a) : Filed (push q (key a) a) key where
  key_eq {i b} hm := by
    rcases mem_push.mp hm with h | ⟨rfl, rfl⟩
    · exact hf.key_eq h
    · rfl
  nodup i := by
    by_cases hi : i = key a
    · subst hi
      rw [push_self, nodup_append]
      refine ⟨hf.nodup _, nodup_singleton a, fun b hb c hc => ?_⟩
      rw [mem_singleton] at hc
      subst hc
      exact fun e => ha ⟨_, e ▸ hb⟩
    · rw [push_ne q a hi]
      exact hf.nodup i

omit [DecidableEq ι] in
theorem Filed.remove {q : ι → List α} {key : α → ι} (hf : Filed q key) (a : α) :
    Filed (remove q a) key where
  key_eq hm := hf.key_eq (hf.mem_remove.mp hm).2
  nodup i := (hf.nodup i).erase a

/-- **Moving an element to another queue together with its key**: `key'` is `key` except at `a`. -/
theorem Filed.move {q : ι → List α} {key key' : α → ι} (hf : Filed q key) (a : α)
    (h : ∀ b, b ≠ a → key' b = key b) : Filed (Lib.push (Lib.remove q a) (key' a) a) key' := by
  have hr : Filed (Lib.remove q a) key' :=
    (hf.remove a).congr fun b hb => h b (hf.queued_remove.mp hb).1
  exact hr.push fun hq => (hf.queued_remove.mp hq).1 rfl

theorem Filed.queued_move {q : ι → List α} {key : α → ι} (hf : Filed q key) {i : ι} {a b : α}
    (ha : Queued q a) : Queued (Lib.push (Lib.remove q a) i a) b ↔ Queued q b := by
  rw [queued_push, hf.queued_remove]
  constructor
  · rintro (⟨_, h⟩ | rfl)
    · exact h
    · exact ha
  · intro h
    by_cases hb : b = a
    · exact .inr hb
    · exact .inl ⟨hb, h⟩

/-! ## 3. Taking the front element -/

omit [DecidableEq α] in
theorem Filed.tail {q : ι → List α} {key : α → ι} (hf : Filed q key) {i : ι} {a : α}
    {l : List α} (hq : q i = a :: l) : Filed (update q i l) key where
  key_eq {j b} hm := by
    by_cases hj : j = i
    · subst hj
      rw [update_self] at hm
      exact hf.key_eq (hq ▸ mem_cons_of_mem a hm)
    · rw [update_of_ne hj] at hm
      exact hf.key_eq hm
  nodup j := by
    by_cases hj : j = i
    · subst hj
      rw [update_self]
      exact (hq ▸ hf.nodup j : (a :: l).Nodup).of_cons
    · rw [update_of_ne hj]
      exact hf.nodup j

omit [DecidableEq α] in
theorem Filed.queued_tail {q : ι → List α} {key : α → ι} (hf : Filed q key) {i : ι} {a b : α}
    {l : List α} (hq : q i = a :: l) : Queued (update q i l) b ↔ b ≠ a ∧ Queued q b := by
  have hn : a ∉ l := (nodup_cons.mp (hq ▸ hf.nodup i)).1
  have hk : key a = i := hf.key_eq (hq ▸ mem_cons_self)
  constructor
  · rintro ⟨j, hj⟩
    by_cases hji : j = i
    · subst hji
      rw [update_self] at hj
      exact ⟨fun e => hn (e ▸ hj), j, hq ▸ mem_cons_of_mem a hj⟩
    · rw [update_of_ne hji] at hj
      exact ⟨fun e => hji ((hf.key_eq hj).symm.trans (e ▸ hk)), j, hj⟩
  · rintro ⟨hb, j, hj⟩
    refine ⟨j, ?_⟩
    by_cases hji : j = i
    · subst hji
      rw [update_self]
      rw [hq] at hj
      exact (mem_cons.mp hj).resolve_left hb
    · rw [update_of_ne hji]
      exact hj

/-! ## 4. The highest non-empty queue -/

/-- The largest `i < n` whose queue is not empty. -/
def highest (q : ℕ → List α) : ℕ → Option ℕ
  | 0 => none
  | n + 1 => if (q n).isEmpty then highest q n else some n

omit [DecidableEq α] in
theorem highest_some {q : ℕ → List α} : ∀ {n i : ℕ}, highest q n = some i →
    i < n ∧ q i ≠ [] ∧ ∀ j, i < j → j < n → q j = []
  | 0, _, h => by simp [highest] at h
  | n + 1, i, h => by
    unfold highest at h
    split at h
    · rename_i he
      obtain ⟨hlt, hne, hab⟩ := highest_some h
      refine ⟨by omega, hne, fun j hij hj => ?_⟩
      by_cases hjn : j = n
      · subst hjn
        exact isEmpty_iff.mp he
      · exact hab j hij (by omega)
    · rename_i he
      cases h
      exact ⟨by omega, fun e => he (isEmpty_iff.mpr e), fun j _ _ => by omega⟩

omit [DecidableEq α] in
theorem highest_none {q : ℕ → List α} : ∀ {n : ℕ}, highest q n = none → ∀ j, j < n → q j = []
  | 0, _, j, hj => by omega
  | n + 1, h, j, hj => by
    unfold highest at h
    split at h
    · rename_i he
      by_cases hjn : j = n
      · subst hjn
        exact List.isEmpty_iff.mp he
      · exact highest_none h j (by omega)
    · cases h

/-! ## 5. The contents -/

section Contents

variable {α : Type*} {b b' : ℕ → List α} {n i : ℕ} {a : α} {l : List α}

/-- The contents of the first `n` lists. -/
def flat (b : ℕ → List α) (n : ℕ) : List α := (range n).flatMap b

@[simp] theorem flat_zero : flat b 0 = [] := rfl

theorem flat_succ : flat b (n + 1) = flat b n ++ b n := by
  simp [flat, range_succ]

theorem mem_flat : a ∈ flat b n ↔ ∃ i < n, a ∈ b i := by
  simp [flat]

theorem flat_congr (h : ∀ i < n, b i = b' i) : flat b n = flat b' n :=
  flatMap_congr fun i hi => h i (mem_range.mp hi)

theorem flat_eq_nil (h : ∀ i < n, b i = []) : flat b n = [] := by
  rw [flat, flatMap_eq_nil_iff]
  exact fun i hi => h i (mem_range.mp hi)

theorem flat_perm_cons : ∀ {n : ℕ}, i < n → (b i).Perm (a :: l) →
    (flat b n).Perm (a :: flat (update b i l) n)
  | 0, hi, _ => absurd hi (Nat.not_lt_zero i)
  | n + 1, hi, h => by
    rw [flat_succ, flat_succ]
    by_cases e : i = n
    · subst e
      have hsame : flat (update b i l) i = flat b i :=
        flat_congr fun j hj => update_of_ne (Nat.ne_of_lt hj) ..
      rw [update_self, hsame]
      exact (h.append_left _).trans perm_middle
    · rw [update_of_ne (Ne.symm e)]
      exact (flat_perm_cons (by omega) h).append_right _

theorem flat_update_cons (hi : i < n) : (flat (update b i (a :: b i)) n).Perm (a :: flat b n) := by
  have h := flat_perm_cons (b := update b i (a :: b i)) (l := b i) hi
    (by rw [update_self])
  rwa [update_idem, update_eq_self] at h

end Contents

end Pintos.Lib
