/-
  Subject:   `list_sort` (list.c): a natural merge sort by splicing single nodes.

  * `less` compares elements by their addresses; what it reads of them is not in the links, so it
    answers the same throughout.
  * The assertions of the source stand in the model: `is_sorted` is run before each merge and at the
    end.
  * A pass is a `MergePass` of Lib/MergeRuns.lean.
-/
import Pintos.Klib.List
import Pintos.Lib.MergeRuns

namespace Pintos

open Lib List Option Nat

variable {α : Type} [DecidableEq α] (less : α → α → Bool)

/-! ## 1. The code -/

/-- The loop of `is_sorted`. -/
def isSortedLoop : ℕ → Links α → α → α → Option Bool
  | 0, _, _, _ => none
  | fuel + 1, m, a, b => do
      let a ← listNext m a
      if a = b then some true
      else do
        let p ← listPrev m a
        if less a p then some false else isSortedLoop fuel m a b

/-- `is_sorted`. -/
def isSorted (fuel : ℕ) (m : Links α) (a b : α) : Option Bool :=
  if a = b then some true else isSortedLoop less fuel m a b

/-- The loop of `find_end_of_run`. -/
def findLoop : ℕ → Links α → α → α → Option α
  | 0, _, _, _ => none
  | fuel + 1, m, a, b => do
      let a ← listNext m a
      if a = b then some a
      else do
        let p ← listPrev m a
        if less a p then some a else findLoop fuel m a b

/-- `find_end_of_run`. -/
def findEndOfRun (fuel : ℕ) (m : Links α) (a b : α) : Option α :=
  if a = b then none else findLoop less fuel m a b

/-- The loop of `inplace_merge`. -/
def mergeLoop : ℕ → Links α → α → α → α → Option (Links α)
  | 0, _, _, _, _ => none
  | fuel + 1, m, a0, a1b0, b1 =>
    if a0 ≠ a1b0 ∧ a1b0 ≠ b1 then
      if !less a1b0 a0 then do
        let a0 ← listNext m a0
        mergeLoop fuel m a0 a1b0 b1
      else do
        let a1b0 ← listNext m a1b0
        let p ← listPrev m a1b0
        let m ← listSplice m a0 p a1b0
        mergeLoop fuel m a0 a1b0 b1
    else some m

/-- `inplace_merge`. -/
def inplaceMerge (fuel : ℕ) (m : Links α) (a0 a1b0 b1 : α) : Option (Links α) := do
  let first ← isSorted less fuel m a0 a1b0
  let second ← isSorted less fuel m a1b0 b1
  if first && second then mergeLoop less fuel m a0 a1b0 b1 else none

/-- The inner loop of `list_sort`: one pass over the list, with `output_run_cnt`. -/
def passLoop (n : ℕ) : ℕ → Links α → α → α → ℕ → Option (Links α × ℕ)
  | 0, _, _, _, _ => none
  | fuel + 1, m, a0, tail, cnt =>
    if a0 = tail then some (m, cnt)
    else do
      let a1b0 ← findEndOfRun less n m a0 tail
      if a1b0 = tail then some (m, cnt + 1)
      else do
        let b1 ← findEndOfRun less n m a1b0 tail
        let m ← inplaceMerge less n m a0 a1b0 b1
        passLoop n fuel m b1 tail (cnt + 1)

/-- The outer loop of `list_sort`. -/
def sortLoop (n : ℕ) : ℕ → Links α → KList α → Option (Links α)
  | 0, _, _ => none
  | fuel + 1, m, list => do
      let a0 ← listBegin m list
      let (m, cnt) ← passLoop less n n m a0 list.tail 0
      if cnt > 1 then sortLoop n fuel m list else some m

/-- `list_sort`. -/
def listSort (fuel : ℕ) (m : Links α) (list : KList α) : Option (Links α) := do
  let m ← sortLoop less fuel fuel m list
  let a ← listBegin m list
  let sorted ← isSorted less fuel m a list.tail
  if sorted then some m else none

/-! ## 2. Runs -/

section Runs

variable {less} {m : Links α} {h t a : α} {P S A B : List α} {fuel : ℕ}

omit [DecidableEq α] in
theorem elem_notLater (hl : DList m h (P ++ a :: S) t) : a ∉ S ++ [t] := by
  have hd := hl.distinct
  unfold nodes at hd
  rw [append_assoc, ← cons_append] at hd
  exact (nodup_cons.mp (nodup_append.mp hd).2.1).1

omit [DecidableEq α] in
theorem elem_ne_tail (hl : DList m h (P ++ a :: S) t) : a ≠ t :=
  fun e => elem_notLater hl (e ▸ List.mem_append_right S (List.mem_singleton.mpr rfl))

omit [DecidableEq α] in
theorem elem_ne_headD (hl : DList m h (P ++ a :: (A ++ B)) t) : a ≠ B.headD t := by
  intro e
  refine elem_notLater hl ?_
  rw [append_assoc, e]
  exact mem_append_right A (DList.headD_mem B t)

omit [DecidableEq α] in
theorem listPrev_second {b : α} (hl : DList m h (P ++ a :: b :: S) t) : listPrev m b = some a := by
  rw [append_cons] at hl
  have hp := listPrev_eq hl
  rwa [getLastD_concat] at hp

/-- **`find_end_of_run`** up to the end of the list, by induction on what follows. -/
theorem findLoop_spec (hl : DList m h (P ++ a :: S) t) (hfuel : S.length < fuel) :
    findLoop less fuel m a t = some ((takeRun less a S).2.headD t) := by
  induction S generalizing P a fuel with
  | nil =>
    obtain ⟨fuel, rfl⟩ := exists_eq_succ_of_ne_zero (ne_zero_of_lt hfuel)
    unfold findLoop
    rw [listNext_elem hl]
    exact if_pos rfl
  | cons b S ih =>
    obtain ⟨fuel, rfl⟩ := exists_eq_succ_of_ne_zero (ne_zero_of_lt hfuel)
    have hl' := hl
    rw [append_cons] at hl'
    have hnext : listNext m a = some b := listNext_elem hl
    unfold findLoop takeRun
    simp only [hnext, bind_eq_bind, bind_some, if_neg (elem_ne_tail hl'),
      listPrev_second hl]
    cases hba : less b a with
    | true => rfl
    | false =>
      simp only [Bool.false_eq_true, if_false]
      exact ih hl' (lt_of_succ_lt_succ hfuel)

theorem findEndOfRun_spec (less : α → α → Bool) (hl : DList m h (P ++ a :: S) t) (hfuel : S.length < fuel) :
    findEndOfRun less fuel m a t = some ((takeRun less a S).2.headD t) := by
  unfold findEndOfRun
  rw [if_neg (elem_ne_tail hl)]
  exact findLoop_spec hl hfuel

theorem isSortedLoop_spec (hl : DList m h (P ++ a :: (A ++ B)) t) (hfuel : A.length < fuel)
    (hs : (a :: A).IsChain fun a b => notAfter less a b = true) :
    isSortedLoop less fuel m a (B.headD t) = some true := by
  induction A generalizing P a fuel with
  | nil =>
    obtain ⟨fuel, rfl⟩ := exists_eq_succ_of_ne_zero (ne_zero_of_lt hfuel)
    unfold isSortedLoop
    rw [listNext_elem hl]
    exact if_pos rfl
  | cons b A ih =>
    obtain ⟨fuel, rfl⟩ := exists_eq_succ_of_ne_zero (ne_zero_of_lt hfuel)
    obtain ⟨hab, hs⟩ := isChain_cons_cons.mp hs
    have hba : less b a = false := by simpa [notAfter] using hab
    have hl' := hl
    rw [cons_append, append_cons] at hl'
    have hnext : listNext m a = some b := listNext_elem hl
    unfold isSortedLoop
    simp only [hnext, bind_eq_bind, bind_some, if_neg (elem_ne_headD hl'),
      listPrev_second hl, hba, Bool.false_eq_true, if_false]
    exact ih hl' (lt_of_succ_lt_succ hfuel) hs

theorem isSorted_spec (hl : DList m h (P ++ (A ++ B)) t) (hfuel : A.length < fuel)
    (hs : A.IsChain fun a b => notAfter less a b = true) :
    isSorted less fuel m ((A ++ B).headD t) (B.headD t) = some true := by
  unfold isSorted
  cases A with
  | nil => exact if_pos rfl
  | cons a A =>
    rw [cons_append] at hl ⊢
    show (if a = B.headD t then _ else isSortedLoop less fuel m a (B.headD t)) = _
    rw [if_neg (elem_ne_headD hl)]
    exact isSortedLoop_spec hl (lt_of_succ_lt hfuel) hs

/-! ## 3. Merging -/

/-- **The loop of `inplace_merge`**, by induction on the two stretches that are left: either the
    first element of the first one stays, or the first of the second one moves in front of it. -/
theorem mergeLoop_spec (less : α → α → Bool) {S : List α}
    (hl : DList m h (P ++ (A ++ (B ++ S))) t) (hfuel : A.length + B.length < fuel) :
    ∃ m', mergeLoop less fuel m ((A ++ (B ++ S)).headD t) ((B ++ S).headD t) (S.headD t) = some m' ∧
      DList m' h (P ++ (A.merge B (notAfter less) ++ S)) t := by
  induction fuel generalizing m P A B with
  | zero => exact absurd hfuel (not_lt_zero _)
  | succ fuel ih =>
    unfold mergeLoop
    cases A with
    | nil =>
      refine ⟨m, if_neg fun hc => hc.1 rfl, ?_⟩
      rw [nil_merge]
      exact hl
    | cons a A =>
      cases B with
      | nil =>
        refine ⟨m, if_neg fun hc => hc.2 rfl, ?_⟩
        rw [merge_right]
        exact hl
      | cons b B =>
        have hla := hl
        rw [cons_append, append_cons] at hla
        have hlb : DList m h ((P ++ (a :: A)) ++ b :: (B ++ S)) t := by
          rw [append_assoc]
          exact hl
        have hab : a ≠ b := elem_ne_headD (B := b :: (B ++ S)) hl
        have hbS : b ≠ S.headD t := elem_ne_headD hlb
        have hcond : (a :: A ++ (b :: B ++ S)).headD t ≠ (b :: B ++ S).headD t ∧
            (b :: B ++ S).headD t ≠ S.headD t := ⟨hab, hbS⟩
        rw [if_pos hcond, cons_merge_cons]
        show ∃ m', (if (!less b a) = true then _ else _) = some m' ∧ _
        by_cases hle : notAfter less a b = true
        · rw [if_pos (show (!less b a) = true from hle), if_pos hle]
          obtain ⟨m', hrun, hl'⟩ := ih hla (by
            rw [length_cons] at hfuel
            omega)
          refine ⟨m', ?_, ?_⟩
          · have hnext : listNext m a = some ((A ++ (b :: B ++ S)).headD t) :=
              listNext_elem hl
            show (listNext m a).bind _ = _
            rw [hnext]
            exact hrun
          · rw [append_assoc] at hl'
            exact hl'
        · rw [if_neg (show ¬ (!less b a) = true from hle), if_neg hle]
          have hnext : listNext m b = some ((B ++ S).headD t) := listNext_elem hlb
          have hprev : listPrev m ((B ++ S).headD t) = some b := by
            rw [append_cons] at hlb
            have hp := listPrev_eq hlb
            rwa [getLastD_concat] at hp
          obtain ⟨m₁, hsplice, hl1⟩ := listSplice_forward (C := P) (M := a :: A) (R := [b])
            (B := B ++ S) hl
          have hsplice : listSplice m a b ((B ++ S).headD t) = some m₁ := hsplice
          rw [← append_assoc] at hl1
          obtain ⟨m', hrun, hl'⟩ := ih hl1 (by
            rw [length_cons] at hfuel ⊢
            rw [length_cons] at hfuel
            omega)
          refine ⟨m', ?_, ?_⟩
          · show (listNext m b).bind _ = _
            rw [hnext, bind_some]
            show (listPrev m ((B ++ S).headD t)).bind _ = _
            rw [hprev, bind_some]
            show (listSplice m a b ((B ++ S).headD t)).bind _ = _
            rw [hsplice]
            exact hrun
          · rw [append_assoc] at hl'
            exact hl'

theorem inplaceMerge_spec {S : List α} (hl : DList m h (P ++ (A ++ (B ++ S))) t)
    (hfuel : A.length + B.length < fuel) (hA : A.IsChain fun a b => notAfter less a b = true)
    (hB : B.IsChain fun a b => notAfter less a b = true) :
    ∃ m', inplaceMerge less fuel m ((A ++ (B ++ S)).headD t) ((B ++ S).headD t) (S.headD t) =
        some m' ∧ DList m' h (P ++ (A.merge B (notAfter less) ++ S)) t := by
  obtain ⟨m', hrun, hl'⟩ := mergeLoop_spec less hl hfuel
  have hl2 : DList m h ((P ++ A) ++ (B ++ S)) t := by
    rw [append_assoc]
    exact hl
  refine ⟨m', ?_, hl'⟩
  unfold inplaceMerge
  rw [isSorted_spec hl (by omega) hA, isSorted_spec hl2 (by omega) hB]
  exact hrun

/-! ## 4. Passes -/

theorem passLoop_spec (less : α → α → Bool) {n : ℕ} (cnt : ℕ) (hl : DList m h (P ++ S) t)
    (hn : S.length < n) (hfuel : S.length < fuel) :
    ∃ m' S' k, passLoop less n fuel m (S.headD t) t cnt = some (m', cnt + k) ∧
      MergePass less S S' k ∧ DList m' h (P ++ S') t := by
  induction fuel generalizing m P S cnt with
  | zero => exact absurd hfuel (not_lt_zero _)
  | succ fuel ih =>
    cases S with
    | nil => exact ⟨m, [], 0, if_pos rfl, .nil, hl⟩
    | cons a S =>
      rw [length_cons] at hn hfuel
      obtain ⟨r₁, l₂, h1⟩ : ∃ r₁ l₂, takeRun less a S = (r₁, l₂) := ⟨_, _, rfl⟩
      have hfind1 := findEndOfRun_spec less hl (show S.length < n by omega)
      rw [h1] at hfind1
      have heq1 := takeRun_eq h1
      cases l₂ with
      | nil =>
        refine ⟨m, a :: S, 1, ?_, .single h1, hl⟩
        show (if a = t then _ else _) = _
        rw [if_neg (elem_ne_tail hl)]
        show (findEndOfRun less n m a t).bind _ = _
        rw [hfind1]
        exact if_pos rfl
      | cons b l₂ =>
        obtain ⟨r₂, l₃, h2⟩ : ∃ r₂ l₃, takeRun less b l₂ = (r₂, l₃) := ⟨_, _, rfl⟩
        have heq2 := takeRun_eq h2
        have hl2 : DList m h ((P ++ r₁) ++ b :: l₂) t := by
          rw [append_assoc, ← heq1]
          exact hl
        have hlen1 := congrArg List.length heq1
        have hlen2 := congrArg List.length heq2
        simp only [length_cons, length_append] at hlen1 hlen2
        have hfind2 := findEndOfRun_spec less hl2 (show l₂.length < n by omega)
        rw [h2] at hfind2
        have hlm : DList m h (P ++ (r₁ ++ (r₂ ++ l₃))) t := by
          rw [← heq2, ← heq1]
          exact hl
        have hc1 := takeRun_chain less a S
        have hc2 := takeRun_chain less b l₂
        rw [h1] at hc1
        rw [h2] at hc2
        obtain ⟨m₁, hmerge, hl1⟩ := inplaceMerge_spec hlm
          (show r₁.length + r₂.length < n by omega) hc1 hc2
        rw [← heq2, ← heq1] at hmerge
        rw [← append_assoc] at hl1
        obtain ⟨r, hr⟩ := takeRun_head less a S
        rw [h1] at hr
        have hr1 : 0 < r₁.length := by
          rw [show r₁ = a :: r from hr]
          exact succ_pos _
        obtain ⟨m', S', k, hrun, hpass, hl'⟩ := ih (cnt + 1) hl1 (by omega) (by omega)
        refine ⟨m', _, k + 1, ?_, .pair h1 h2 hpass, ?_⟩
        · show (if a = t then _ else _) = _
          rw [if_neg (elem_ne_tail hl)]
          show (findEndOfRun less n m a t).bind _ = _
          rw [hfind1, bind_some]
          show (if b = t then _ else _) = _
          rw [if_neg (elem_ne_tail hl2)]
          show (findEndOfRun less n m b t).bind _ = _
          rw [hfind2, bind_some]
          show (inplaceMerge less n m a b (l₃.headD t)).bind _ = _
          rw [show inplaceMerge less n m a b (l₃.headD t) = some m₁ from hmerge,
            bind_some, hrun, add_assoc, add_comm 1 k]
        · rw [← append_assoc]
          exact hl'

/-- **The outer loop**, by induction on its turns: each pass that does not end the loop halves the
    number of descents. -/
theorem sortLoop_spec {l : List α} {n : ℕ} (ho : StrictWeakOrder less) (hl : DList m h l t)
    (hn : l.length < n) (hfuel : descents less l < fuel) :
    ∃ m' l', sortLoop less n fuel m ⟨h, t⟩ = some m' ∧ DList m' h l' t ∧ StablySorts less l l' := by
  induction fuel generalizing m l with
  | zero => exact absurd hfuel (not_lt_zero _)
  | succ fuel ih =>
    obtain ⟨m₁, l₁, k, hrun, hpass, hl1⟩ := passLoop_spec less (P := []) 0 hl hn hn
    rw [nil_append] at hl1
    have hle := hpass.descents_le ho
    have hperm := hpass.perm
    have hfirst : sortLoop less n (fuel + 1) m ⟨h, t⟩ =
        if k > 1 then sortLoop less n fuel m₁ ⟨h, t⟩ else some m₁ := by
      show (listBegin m ⟨h, t⟩).bind _ = _
      rw [listBegin_eq hl, bind_some]
      show (passLoop less n n m (l.headD t) t 0).bind _ = _
      rw [hrun, bind_some, zero_add]
    by_cases hk : k > 1
    · have hne : l ≠ [] := by
        intro e
        subst e
        cases hpass
        exact absurd hk (by decide)
      have hcount := hpass.count hne
      obtain ⟨m', l', hrun', hl', hs⟩ := ih hl1 (by rw [hperm.length_eq]; exact hn) (by omega)
      refine ⟨m', l', ?_, hl', hs.perm.trans hperm, hs.sorted, fun x => ?_⟩
      · rw [hfirst, if_pos hk]
        exact hrun'
      · rw [hs.stable x, hpass.stable ho x]
    · refine ⟨m₁, l₁, hfirst.trans (if_neg hk), hl1, hperm, ?_, hpass.stable ho⟩
      exact ho.nonDecreasing_of_chain (chain_of_descents (by omega))

end Runs

/-- **`list_sort` is a stable sort.** With a strict weak order, it ends with a well-formed list of
    the same elements in non-decreasing order, equivalent ones as they were. -/
theorem list_sort_stable {less : α → α → Bool} {m : Links α} {h t : α} {l : List α} {fuel : ℕ}
    (ho : StrictWeakOrder less) (hl : DList m h l t) (hfuel : l.length < fuel) :
    ∃ m' l', listSort less fuel m ⟨h, t⟩ = some m' ∧ DList m' h l' t ∧ StablySorts less l l' := by
  have hd : descents less l < fuel := by
    cases l with
    | nil => exact lt_of_le_of_lt (zero_le _) hfuel
    | cons a l => exact lt_trans (descents_lt_length (cons_ne_nil a l)) hfuel
  obtain ⟨m', l', hrun, hl', hs⟩ := sortLoop_spec ho hl hfuel hd
  refine ⟨m', l', ?_, hl', hs⟩
  have hsorted := isSorted_spec (P := []) (A := l') (B := [])
    (by rw [append_nil]; exact hl')
    (show l'.length < fuel by rw [hs.perm.length_eq]; exact hfuel) hs.sorted.isChain
  rw [append_nil] at hsorted
  unfold listSort
  rw [hrun]
  show (listBegin m' ⟨h, t⟩).bind _ = _
  rw [listBegin_eq hl', bind_some]
  rw [show isSorted less fuel m' (l'.headD t) t = some true from hsorted]
  rfl

/-- Two nodes, sorted by descending address. -/
theorem list_sort_stable_two :
    ∃ m' l', listSort (fun a b => decide (b < a)) 3 twoNodes ⟨0, 3⟩ = some m' ∧ DList m' 0 l' 3 ∧
      StablySorts (fun a b => decide (b < a)) [1, 2] l' := by
  have ho : StrictWeakOrder (fun a b : ℕ => decide (b < a)) := by
    refine ⟨fun a => ?_, fun a b c => ?_, fun a b c => ?_⟩ <;> simp only [decide_eq_true_eq,
      decide_eq_false_iff_not] <;> omega
  exact list_sort_stable ho (twoNodes_lists.list ()) (by decide)

end Pintos
