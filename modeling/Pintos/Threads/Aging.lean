/-
  Subject:   `thread_aging`, down to the links of the ready queues.

  The loop takes elements out of the list it walks over, pushes them on the next queue and repairs its
  cursor through `list_prev` of the successor. `agingLoop` and `agingLevels` do this link by link, and
  compute the fold over the queue that `agingLevel` is. The fold comes to this: a queue keeps the threads
  that are not due, and gets those of the queue below that are (`agedFrom`).
-/
import Pintos.Klib.List
import Pintos.Threads.ReadyQueues

namespace Pintos

open Lib Function List

/-! ## 1. The code, on the links -/

/-- A node of the ready queues: `elem` of a thread, or a header of `ready_list[i]`. -/
inductive ReadyNode where
  | elem (t : Tid)
  | head (i : ℕ)
  | tail (i : ℕ)
  deriving DecidableEq

/-- `&ready_list[i]`; the array has 64 entries. -/
def readyListAt (i : Int) : Option (KList ReadyNode) :=
  if 0 ≤ i ∧ i ≤ 63 then some ⟨.head i.toNat, .tail i.toNat⟩ else none

/-- What `thread_aging` writes: links, thread records and its flag. -/
structure AgingState where
  links : Links ReadyNode
  thr : Tid → Thread
  yield : Bool

/-- The body of the `if` in `thread_aging`, for the thread at the cursor, with the cursor after
    it. -/
def agingMove (running : Tid) (a : AgingState) (t : Tid) : Option (AgingState × ReadyNode) := do
  let p := (a.thr t).priority + 1
  let thr := update a.thr t { a.thr t with priority := p }
  let (links, next) ← listRemove a.links (.elem t)
  let queue ← readyListAt p
  let links ← listPushBack links queue (.elem t)
  let e ← listPrev links next
  -- `thread_current` asserts that the thread is running
  if (thr running).status = .running then
    some (⟨links, thr, a.yield || decide (p > (thr running).priority)⟩, e)
  else none

/-- The inner loop of `thread_aging`, with its cursor `e`. -/
def agingLoop (ticks : Int) (running : Tid) (list : KList ReadyNode) :
    ℕ → AgingState → ReadyNode → Option AgingState
  | 0, _, _ => none
  | fuel + 1, a, e =>
    if e = list.tail then some a
    else
      match e with
      | .elem t =>
        if (ticks - (a.thr t).recentUnused).tmod 100 = 0 then
          (agingMove running a t).bind fun ae =>
            (listNext ae.1.links ae.2).bind (agingLoop ticks running list fuel ae.1)
        else (listNext a.links (.elem t)).bind (agingLoop ticks running list fuel a)
      -- `list_entry` of a header is no thread
      | _ => none

/-- The outer loop, from the level below `k` down to `PRI_MIN`. -/
def agingLevels (ticks : Int) (running : Tid) (fuel : ℕ) : ℕ → AgingState → Option AgingState
  | 0, a => some a
  | k + 1, a => do
      let list ← readyListAt k
      let e ← listBegin a.links list
      let a ← agingLoop ticks running list fuel a e
      agingLevels ticks running fuel k a

/-- `thread_aging`: the links, the thread records and `yield_on_return` after it.
    `intr_yield_on_return` asserts that it runs in an interrupt. -/
def threadAgingLinks (fuel : ℕ) (links : Links ReadyNode) (s : Sched) :
    Option (Links ReadyNode × (Tid → Thread) × Bool) := do
  let a ← agingLevels s.ticks s.running fuel 63 ⟨links, s.thr, false⟩
  if a.yield then
    if s.inExternalIntr then some (a.links, a.thr, true) else none
  else some (a.links, a.thr, s.yieldOnReturn)

/-- **The links hold the queues.** -/
def Held (links : Links ReadyNode) (q : Int → List Tid) : Prop :=
  Lists links (fun i : Fin 64 => .head i) (fun i : Fin 64 => .tail i)
    fun i : Fin 64 => (q (i : ℕ)).map .elem

/-! ## 2. One level -/

/-- A thread is due if it has waited for a multiple of 100 ticks. -/
def eligible (s : Sched) (t : Tid) : Bool := decide ((s.ticks - (s.thr t).recentUnused) % 100 = 0)

/-- The records after the threads of `l` have been raised by one. -/
def raised (thr : Tid → Thread) (l : List Tid) (t : Tid) : Thread :=
  if t ∈ l then { thr t with priority := (thr t).priority + 1 } else thr t

theorem tmod_hundred (x : Int) : x.tmod 100 = 0 ↔ x % 100 = 0 :=
  Int.dvd_iff_tmod_eq_zero.symm.trans Int.dvd_iff_emod_eq_zero

variable {s : Sched} {y : Bool} {i : ℕ} {t : Tid} {A B : List Tid}

theorem RunInv.ne_running (h : RunInv s) (ht : t ∈ s.readyList i) : s.running ≠ t :=
  fun e => h.running_not_queued ⟨i, e ▸ ht⟩

theorem agingStep_eligible (h : RunInv s) (ht : t ∈ s.readyList i) (he : eligible s t = true) :
    agingStep (s, y) t = (s.requeue t (i + 1), y || decide (s.priority s.running < i + 1)) := by
  have hp : s.priority t = i := h.filed.key_eq ht
  have hcond : (s.ticks - (s.thr t).recentUnused).tmod 100 = 0 :=
    (tmod_hundred _).mpr (of_decide_eq_true he)
  have hrun : (s.requeue t (s.priority t + 1)).priority s.running = s.priority s.running :=
    (s.priority_setPriority t _ _).trans (if_neg (h.ne_running ht))
  unfold agingStep
  simp only [if_pos hcond]
  rw [← hp]
  congr 3
  exact congrArg (fun x => s.priority t + 1 > x) hrun

theorem agingStep_not_eligible (he : eligible s t = false) : agingStep (s, y) t = (s, y) :=
  if_neg fun hc => of_decide_eq_false he ((tmod_hundred _).mp hc)

theorem requeue_readyList (h : RunInv s) (hi : s.readyList i = A ++ t :: B) :
    (s.requeue t (i + 1)).readyList = update (update s.readyList i (A ++ B))
      (i + 1) (s.readyList (i + 1) ++ [t]) := by
  show push (remove s.readyList t) (i + 1) t = _
  rw [h.filed.remove_eq hi]
  unfold push
  rw [update_of_ne (by omega : (i : Int) + 1 ≠ i)]

theorem requeue_thr (p : Int) : (s.requeue t p).thr = update s.thr t
    { s.thr t with priority := p } := rfl

theorem eligible_requeue (p : Int) (u : Tid) : eligible (s.requeue t p) u = eligible s u := by
  unfold eligible
  rw [requeue_thr]
  by_cases hu : u = t
  · subst hu
    rw [update_self]
    rfl
  · rw [update_of_ne hu]
    rfl

/-- The state after the threads `l` of level `i` have moved up, and the threads `k` are left. -/
def Sched.moveUp (s : Sched) (i : ℕ) (k l : List Tid) : Sched :=
  { s with
    readyList := update (update s.readyList i k) (i + 1)
      (s.readyList (i + 1) ++ l)
    thr := raised s.thr l }

theorem Sched.moveUp_readyList_ne (s : Sched) {k l : List Tid} {j : Int} (hj : j ≠ i)
    (hj' : j ≠ i + 1) : (s.moveUp i k l).readyList j = s.readyList j :=
  (update_of_ne hj' ..).trans (update_of_ne hj ..)

/-- **The walk over one level**, by induction on the threads that the cursor has not passed: `A`
    are those it has left behind. -/
theorem aging_walk (hi : i < 63) (h : RunInv s) (hq : s.readyList i = A ++ B) :
    B.foldl agingStep (s, y) =
      (s.moveUp i (A ++ B.filter fun t => !eligible s t) (B.filter (eligible s)),
        y || B.any fun t => eligible s t && decide (s.priority s.running < i + 1)) := by
  induction B generalizing A s y with
  | nil =>
    rw [foldl_nil, any_nil, Bool.or_false]
    refine Prod.ext ?_ rfl
    unfold Sched.moveUp
    rw [filter_nil, filter_nil, ← hq, append_nil, update_eq_self,
      update_eq_self]
    have hthr : raised s.thr [] = s.thr := funext fun u => if_neg not_mem_nil
    rw [hthr]
  | cons t B ih =>
    have ht : t ∈ s.readyList i := hq ▸ mem_append_right A mem_cons_self
    rw [foldl_cons]
    cases he : eligible s t with
    | false =>
      rw [agingStep_not_eligible he, ih (A := A ++ [t]) h (by rw [hq, append_cons])]
      simp [he]
    | true =>
      have hp : s.priority t = i := h.filed.key_eq ht
      have hs1 : RunInv (s.requeue t (i + 1)) :=
        h.requeue ⟨_, ht⟩ (by simp only [priMin, priMax]; omega)
      have hql := requeue_readyList h hq
      have hne : (i : Int) ≠ i + 1 := by omega
      have hA : (s.requeue t (i + 1)).readyList i = A ++ B := by
        rw [hql, update_of_ne hne, update_self]
      have hel : eligible (s.requeue t (i + 1)) = eligible s :=
        funext (eligible_requeue (i + 1))
      have hrun : (s.requeue t (i + 1)).priority (s.requeue t (i + 1)).running =
          s.priority s.running :=
        (s.priority_setPriority t _ _).trans (if_neg (h.ne_running ht))
      have htB : t ∉ B := by
        have hnd := h.filed.nodup i
        rw [hq] at hnd
        exact (nodup_cons.mp hnd.of_append_right).1
      rw [agingStep_eligible h ht he, ih hs1 hA, hel, hrun]
      refine Prod.ext ?_ ?_
      · unfold Sched.moveUp
        have hrl : update (update (s.requeue t (i + 1)).readyList i
              (A ++ B.filter fun t => !eligible s t)) (i + 1)
              ((s.requeue t (i + 1)).readyList (i + 1) ++ B.filter (eligible s)) =
            update (update s.readyList i
              (A ++ (t :: B).filter fun t => !eligible s t)) (i + 1)
              (s.readyList (i + 1) ++ (t :: B).filter (eligible s)) := by
          rw [hql, update_self, update_comm hne.symm,
            update_idem, update_idem]
          simp [he]
        have hthr : raised (s.requeue t (i + 1)).thr (B.filter (eligible s)) =
            raised s.thr ((t :: B).filter (eligible s)) := by
          rw [filter_cons_of_pos he, requeue_thr, ← hp]
          funext u
          unfold raised
          by_cases hu : u = t
          · subst hu
            rw [update_self, if_neg fun hm => htB (mem_filter.mp hm).1,
              if_pos mem_cons_self]
            rfl
          · rw [update_of_ne hu]
            simp only [mem_cons, hu, false_or]
        simp only [hrl, hthr]
        rfl
      · simp [he, Bool.or_assoc]

theorem agingLevel_eq (hi : i < 63) (h : RunInv s) : agingLevel (s, y) i =
      (s.moveUp i ((s.readyList i).filter fun t => !eligible s t)
          ((s.readyList i).filter (eligible s)),
        y || (s.readyList i).any fun t =>
          eligible s t && decide (s.priority s.running < i + 1)) :=
  aging_walk (A := []) hi h rfl

/-! ## 3. All levels -/

/-- `t` waits on a level from `lo` to `PRI_MAX - 1`, and is due. -/
def PromotedFrom (s : Sched) (lo : ℕ) (t : Tid) : Prop :=
  (lo : Int) ≤ s.priority t ∧ s.priority t < 63 ∧ t ∈ s.readyList (s.priority t) ∧
    eligible s t = true

instance (s : Sched) (lo : ℕ) (t : Tid) : Decidable (PromotedFrom s lo t) :=
  inferInstanceAs (Decidable (_ ∧ _ ∧ _ ∧ _))

/-- **The state when the outer loop has done the levels down to `lo`.** -/
def agedFrom (s : Sched) (lo : ℕ) : Sched :=
  { s with
    readyList := fun j =>
      (if (lo : Int) ≤ j ∧ j < 63 then (s.readyList j).filter fun t => !eligible s t
        else s.readyList j) ++
      (if (lo : Int) < j ∧ j ≤ 63 then (s.readyList (j - 1)).filter (eligible s) else [])
    thr := fun t =>
      if PromotedFrom s lo t then { s.thr t with priority := s.priority t + 1 } else s.thr t }

theorem eligible_agedFrom (lo : ℕ) : eligible (agedFrom s lo) = eligible s := by
  funext u
  show decide ((s.ticks - ((agedFrom s lo).thr u).recentUnused) % 100 = 0) = eligible s u
  have hru : ((agedFrom s lo).thr u).recentUnused = (s.thr u).recentUnused := by
    show (if PromotedFrom s lo u then _ else s.thr u).recentUnused = _
    split
    · rfl
    · rfl
  rw [hru]
  rfl

theorem agedFrom_top (s : Sched) : agedFrom s 63 = s := by
  have hrl : (agedFrom s 63).readyList = s.readyList := by
    funext j
    show (if ((63 : ℕ) : Int) ≤ j ∧ j < 63 then _ else s.readyList j) ++
      (if ((63 : ℕ) : Int) < j ∧ j ≤ 63 then _ else []) = s.readyList j
    rw [if_neg (by omega), if_neg (by omega), append_nil]
  have hthr : (agedFrom s 63).thr = s.thr := by
    funext u
    exact if_neg fun hp => by
      have h1 : ((63 : ℕ) : Int) ≤ s.priority u := hp.1
      have h2 := hp.2.1
      omega
  calc agedFrom s 63 = { s with readyList := (agedFrom s 63).readyList,
                                thr := (agedFrom s 63).thr } := rfl
    _ = s := by rw [hrl, hthr]

variable {k : ℕ}

/-- **One more level**: the threads of level `k` that are due join those of level `k + 1`. -/
theorem agedFrom_step (h : RunInv s) (hk : k < 63) :
    (agedFrom s (k + 1)).moveUp k ((s.readyList k).filter fun t => !eligible s t)
      ((s.readyList k).filter (eligible s)) = agedFrom s k := by
  have hrl : update (update (agedFrom s (k + 1)).readyList k
        ((s.readyList k).filter fun t => !eligible s t)) (k + 1)
        ((agedFrom s (k + 1)).readyList (k + 1) ++ (s.readyList k).filter (eligible s)) =
      (agedFrom s k).readyList := by
    funext j
    unfold agedFrom
    dsimp only
    by_cases hj : j = k + 1
    · subst hj
      rw [update_self, if_neg (c := _ < _ ∧ _) (by omega), append_nil,
        if_pos (c := _ < _ ∧ _) (by omega), Int.add_sub_cancel]
      exact congrArg (· ++ _) (if_congr (by omega) rfl rfl)
    · rw [update_of_ne hj]
      by_cases hjk : j = k
      · subst hjk
        rw [update_self, if_pos (c := _ ≤ _ ∧ _) (by omega),
          if_neg (c := _ < _ ∧ _) (by omega), append_nil]
      · rw [update_of_ne hjk]
        exact congrArg₂ (· ++ ·) (if_congr (by omega) rfl rfl) (if_congr (by omega) rfl rfl)
  have hthr : raised (agedFrom s (k + 1)).thr ((s.readyList k).filter (eligible s)) =
      (agedFrom s k).thr := by
    funext u
    unfold raised agedFrom
    dsimp only
    by_cases hu : u ∈ (s.readyList k).filter (eligible s)
    · obtain ⟨hm, he⟩ := mem_filter.mp hu
      have hp : s.priority u = k := h.filed.key_eq hm
      have hno : ¬ PromotedFrom s (k + 1) u := fun hc => by
        have h1 := hc.1
        omega
      have hyes : PromotedFrom s k u := ⟨by omega, by omega, hp ▸ hm, he⟩
      rw [if_pos hu, if_neg hno, if_pos hyes]
      rfl
    · rw [if_neg hu]
      refine if_congr ⟨fun hc => ⟨by have h1 := hc.1; omega, hc.2⟩, fun hc => ⟨?_, hc.2⟩⟩ rfl rfl
      have h1 := hc.1
      have hne : s.priority u ≠ k := fun e =>
        hu (mem_filter.mpr ⟨e ▸ hc.2.2.1, hc.2.2.2⟩)
      omega
  unfold Sched.moveUp
  rw [hrl, hthr]
  rfl

/-- The yield that the levels from `lo` up have asked for. -/
def AsksYield (s : Sched) (lo : ℕ) : Prop :=
  ∃ t, PromotedFrom s lo t ∧ s.priority s.running < s.priority t + 1

theorem agedFrom_running (h : RunInv s) (lo : ℕ) :
    (agedFrom s lo).priority s.running = s.priority s.running := by
  have hno : ¬ PromotedFrom s lo s.running := fun hc => h.running_not_queued ⟨_, hc.2.2.1⟩
  show (if PromotedFrom s lo s.running then _ else s.thr s.running).priority = _
  rw [if_neg hno]
  rfl

theorem agingLevel_agedFrom (h : RunInv s) (hk : k < 63) (hinv : RunInv (agedFrom s (k + 1)))
    (hy : y = true ↔ AsksYield s (k + 1)) :
    ∃ y', agingLevel (agedFrom s (k + 1), y) k = (agedFrom s k, y') ∧
      (y' = true ↔ AsksYield s k) := by
  have hq : (agedFrom s (k + 1)).readyList k = s.readyList k := by
    unfold agedFrom
    dsimp only
    rw [if_neg (by omega), if_neg (by omega), append_nil]
  have hlevel := agingLevel_eq (y := y) hk hinv
  rw [hq, eligible_agedFrom, agedFrom_step h hk,
    show (agedFrom s (k + 1)).running = s.running from rfl, agedFrom_running h] at hlevel
  refine ⟨_, hlevel, ?_⟩
  rw [Bool.or_eq_true, hy, any_eq_true]
  constructor
  · intro hc
    rcases hc with ⟨u, hu, hlt⟩ | ⟨u, hm, hu⟩
    · exact ⟨u, ⟨by have h1 := hu.1; omega, hu.2⟩, hlt⟩
    · rw [Bool.and_eq_true, decide_eq_true_eq] at hu
      have hp : s.priority u = k := h.filed.key_eq hm
      exact ⟨u, ⟨by omega, by omega, hp ▸ hm, hu.1⟩, by rw [hp]; exact hu.2⟩
  · intro hc
    obtain ⟨u, hu, hlt⟩ := hc
    by_cases hp : s.priority u = k
    · refine .inr ⟨u, hp ▸ hu.2.2.1, ?_⟩
      rw [Bool.and_eq_true, decide_eq_true_eq]
      exact ⟨hu.2.2.2, hp ▸ hlt⟩
    · exact .inl ⟨u, ⟨by have h1 := hu.1; omega, hu.2⟩, hlt⟩

theorem foldl_levels (sy : Sched × Bool) (k : ℕ) :
    (List.range (k + 1)).reverse.foldl agingLevel sy =
      (List.range k).reverse.foldl agingLevel (agingLevel sy k) := by
  rw [range_succ, reverse_append, reverse_singleton, singleton_append,
    foldl_cons]

/-- **The outer loop**, by induction on the levels that are left. -/
theorem agingLevels_eq (h : RunInv s) (hk : k ≤ 63) (hinv : RunInv (agedFrom s k))
    (hy : y = true ↔ AsksYield s k) :
    ∃ y', (List.range k).reverse.foldl agingLevel (agedFrom s k, y) = (agedFrom s 0, y') ∧
      RunInv (agedFrom s 0) ∧ (y' = true ↔ AsksYield s 0) := by
  induction k generalizing y with
  | zero => exact ⟨y, rfl, hinv, hy⟩
  | succ k ih =>
    obtain ⟨y₁, hlevel, hy1⟩ := agingLevel_agedFrom h hk hinv hy
    have hinv1 := (agingLevel_turn hinv y hk).inv
    rw [hlevel] at hinv1
    obtain ⟨y', hrest, hend, hy'⟩ := ih (by omega) hinv1 hy1
    refine ⟨y', ?_, hend, hy'⟩
    rw [foldl_levels, hlevel]
    exact hrest

theorem not_asksYield_top (s : Sched) : ¬ AsksYield s 63 := fun ⟨u, hu, _⟩ => by
  have h1 : ((63 : ℕ) : Int) ≤ s.priority u := hu.1
  have h2 := hu.2.1
  omega

theorem threadAging_eq (h : RunInv s) : ∃ yield, RunInv (agedFrom s 0) ∧
    (yield = true ↔ s.yieldOnReturn = true ∨ AsksYield s 0) ∧
    threadAging s = { agedFrom s 0 with yieldOnReturn := yield } := by
  obtain ⟨y, hrun, hinv, hy⟩ := agingLevels_eq (y := false) h (Nat.le_refl 63)
    (by rw [agedFrom_top]; exact h)
    ⟨fun hf => absurd hf Bool.false_ne_true, fun hc => absurd hc (not_asksYield_top s)⟩
  rw [agedFrom_top] at hrun
  refine ⟨s.yieldOnReturn || y, hinv, by rw [Bool.or_eq_true, hy], ?_⟩
  unfold threadAging
  rw [hrun]
  cases y with
  | true =>
    rw [Bool.or_true]
    rfl
  | false =>
    rw [Bool.or_false]
    rfl

/-! ## 4. The links follow -/

variable {links : Links ReadyNode} {fuel : ℕ}

theorem readyListAt_level (hi : i < 64) : readyListAt (i : Int) = some ⟨.head i, .tail i⟩ := by
  unfold readyListAt
  rw [if_pos (by omega), Int.toNat_natCast]

theorem held_requeue (h : RunInv s) (hi : i < 63) (hq : s.readyList i = A ++ t :: B) :
    (fun j : Fin 64 => ((s.requeue t (i + 1)).readyList (j : ℕ)).map ReadyNode.elem) =
      update (update (fun j : Fin 64 => (s.readyList (j : ℕ)).map ReadyNode.elem)
        ⟨i, by omega⟩ (A.map .elem ++ B.map .elem)) ⟨i + 1, by omega⟩
        ((s.readyList (i + 1)).map .elem ++ [.elem t]) := by
  funext j
  rw [requeue_readyList h hq]
  by_cases hj : j = ⟨i + 1, by omega⟩
  · subst hj
    rw [update_self]
    rw [show (((⟨i + 1, by omega⟩ : Fin 64) : ℕ) : Int) = i + 1 from Int.natCast_succ i,
      update_self, map_append]
    rfl
  · have hj' : ((j : ℕ) : Int) ≠ i + 1 := fun e => hj (Fin.ext (by show (j : ℕ) = i + 1; omega))
    rw [update_of_ne hj, update_of_ne hj']
    by_cases hji : j = ⟨i, by omega⟩
    · subst hji
      rw [update_self, update_self, map_append]
    · have hji' : ((j : ℕ) : Int) ≠ i := fun e => hji (Fin.ext (by show (j : ℕ) = i; omega))
      rw [update_of_ne hji, update_of_ne hji']

/-- **One thread that is due moves up.** The cursor comes back to the element before the gap, and
    `list_next` of it is the element after. -/
theorem agingMove_spec (h : RunInv s) (hi : i < 63) (hl : Held links s.readyList)
    (hq : s.readyList i = A ++ t :: B) : ∃ links' e, agingMove s.running ⟨links, s.thr, y⟩ t =
        some (⟨links', (s.requeue t (i + 1)).thr,
          y || decide (s.priority s.running < i + 1)⟩, e) ∧
      listNext links' e = some ((B.map ReadyNode.elem).headD (.tail i)) ∧
      Held links' (s.requeue t (i + 1)).readyList := by
  have ht : t ∈ s.readyList i := hq ▸ mem_append_right A mem_cons_self
  have hp : (s.thr t).priority = i := h.filed.key_eq ht
  let here : Fin 64 := ⟨i, by omega⟩
  let above : Fin 64 := ⟨i + 1, by omega⟩
  have hne : above ≠ here := fun e => absurd (congrArg Fin.val e) (Nat.succ_ne_self i)
  have hhere : (s.readyList (here : ℕ)).map ReadyNode.elem =
      A.map .elem ++ .elem t :: B.map .elem := by
    rw [hq, map_append, map_cons]
  -- out of the one list, and to the end of the other
  obtain ⟨links₁, hrem, hl1, hout⟩ := listRemove_spec (i := here) hl hhere
  have habove : update (fun j : Fin 64 => (s.readyList (j : ℕ)).map ReadyNode.elem) here
      (A.map .elem ++ B.map .elem) above = (s.readyList (i + 1)).map .elem ++ [] := by
    rw [update_of_ne hne, append_nil]
    exact congrArg (fun j => (s.readyList j).map ReadyNode.elem) (Int.natCast_succ i)
  obtain ⟨links₂, hins, hl2⟩ := listInsert_spec (i := above) hl1 habove hout
  have hheld : Held links₂ (s.requeue t (i + 1)).readyList := by
    unfold Held
    rw [held_requeue h hi hq]
    exact hl2
  have hlist := hl2.list here
  rw [update_of_ne hne.symm, update_self] at hlist
  have hlevel : readyListAt ((i : Int) + 1) = some ⟨.head (i + 1), .tail (i + 1)⟩ := by
    rw [← Int.natCast_succ]
    exact readyListAt_level (by omega)
  have hrec : update s.thr t { s.thr t with priority := (i : Int) + 1 } s.running =
      s.thr s.running := update_of_ne (h.ne_running ht) ..
  refine ⟨links₂, _, ?_, listNext_eq hlist, hheld⟩
  unfold agingMove
  simp only [hp, hrec]
  rw [hrem, hlevel]
  show (listInsert links₁ (.tail (i + 1)) (.elem t)).bind _ = _
  rw [show listInsert links₁ (.tail (i + 1)) (.elem t) = some links₂ from hins, Option.bind_some]
  show (listPrev links₂ ((B.map ReadyNode.elem).headD (.tail i))).bind _ = _
  rw [listPrev_eq hlist, Option.bind_some]
  exact if_pos h.running_status

/-- **The inner loop computes the fold**, by induction on the threads that the cursor has not
    passed. -/
theorem agingLoop_spec (hi : i < 63) (h : RunInv s) (hl : Held links s.readyList)
    (hq : s.readyList i = A ++ B) (hfuel : B.length < fuel) :
    ∃ links', agingLoop s.ticks s.running ⟨.head i, .tail i⟩ fuel ⟨links, s.thr, y⟩
        ((B.map ReadyNode.elem).headD (.tail i)) =
      some ⟨links', (B.foldl agingStep (s, y)).1.thr, (B.foldl agingStep (s, y)).2⟩ ∧
      Held links' (B.foldl agingStep (s, y)).1.readyList := by
  induction B generalizing A s y links fuel with
  | nil =>
    obtain ⟨fuel, rfl⟩ := Nat.exists_eq_succ_of_ne_zero (Nat.ne_zero_of_lt hfuel)
    exact ⟨links, if_pos rfl, hl⟩
  | cons t B ih =>
    obtain ⟨fuel, rfl⟩ := Nat.exists_eq_succ_of_ne_zero (Nat.ne_zero_of_lt hfuel)
    rw [length_cons, Nat.succ_lt_succ_iff] at hfuel
    have ht : t ∈ s.readyList i := hq ▸ mem_append_right A mem_cons_self
    have hstep : ∀ a : AgingState, agingLoop s.ticks s.running ⟨.head i, .tail i⟩ (fuel + 1) a
        (.elem t) = if (s.ticks - (a.thr t).recentUnused).tmod 100 = 0 then
          (agingMove s.running a t).bind fun ae => (listNext ae.1.links ae.2).bind
            (agingLoop s.ticks s.running ⟨.head i, .tail i⟩ fuel ae.1)
        else (listNext a.links (.elem t)).bind
          (agingLoop s.ticks s.running ⟨.head i, .tail i⟩ fuel a) :=
      fun a => if_neg (by simp)
    rw [foldl_cons, map_cons, headD_cons, hstep]
    cases he : eligible s t with
    | false =>
      have hcond : ¬ (s.ticks - (s.thr t).recentUnused).tmod 100 = 0 :=
        fun hc => of_decide_eq_false he ((tmod_hundred _).mp hc)
      have hlist := hl.list ⟨i, by omega⟩
      rw [hq, map_append, map_cons] at hlist
      rw [agingStep_not_eligible he, if_neg hcond, listNext_elem hlist]
      exact ih (A := A ++ [t]) h hl (by rw [hq, append_cons]) hfuel
    | true =>
      have hcond : (s.ticks - (s.thr t).recentUnused).tmod 100 = 0 :=
        (tmod_hundred _).mpr (of_decide_eq_true he)
      have hs1 : RunInv (s.requeue t (i + 1)) :=
        h.requeue ⟨_, ht⟩ (by simp only [priMin, priMax]; omega)
      have hA : (s.requeue t (i + 1)).readyList i = A ++ B := by
        rw [requeue_readyList h hq, update_of_ne (by omega), update_self]
      obtain ⟨links₁, e, hmove, hnext, hl1⟩ := agingMove_spec (y := y) h hi hl hq
      rw [agingStep_eligible h ht he, if_pos hcond, hmove, Option.bind_some, hnext]
      exact ih hs1 hl1 hA hfuel

/-- **The outer loop computes the fold over the levels.** A level below the one at hand has the
    threads it had at first. -/
theorem agingLevels_spec (hk : k ≤ 63) (h : RunInv s) (hl : Held links s.readyList)
    (hfuel : ∀ j : ℕ, j < k → (s.readyList j).length < fuel) :
    ∃ links', agingLevels s.ticks s.running fuel k ⟨links, s.thr, y⟩ =
        some ⟨links', ((List.range k).reverse.foldl agingLevel (s, y)).1.thr,
          ((List.range k).reverse.foldl agingLevel (s, y)).2⟩ ∧
      Held links' ((List.range k).reverse.foldl agingLevel (s, y)).1.readyList := by
  induction k generalizing s y links with
  | zero => exact ⟨links, rfl, hl⟩
  | succ k ih =>
    obtain ⟨links₁, hloop, hl1⟩ := agingLoop_spec (A := []) (y := y) hk h hl rfl
      (hfuel k (Nat.lt_succ_self k))
    have hlevel := agingLevel_eq (y := y) hk h
    have hinv := (agingLevel_turn h y hk).inv
    change Held links₁ (agingLevel (s, y) k).1.readyList at hl1
    change agingLoop _ _ _ _ _ _ =
      some ⟨links₁, (agingLevel (s, y) k).1.thr, (agingLevel (s, y) k).2⟩ at hloop
    rw [foldl_levels]
    unfold agingLevels
    rw [readyListAt_level (by omega)]
    show ∃ links', (listBegin links ⟨.head k, .tail k⟩).bind _ = _ ∧ _
    rw [listBegin_eq (hl.list ⟨k, by omega⟩), Option.bind_some]
    show ∃ links', (agingLoop _ _ _ _ _ _).bind _ = _ ∧ _
    rw [hloop, Option.bind_some]
    rw [hlevel] at hl1 hinv ⊢
    refine ih (by omega) hinv hl1 fun j hj => ?_
    rw [s.moveUp_readyList_ne (by omega) (by omega)]
    exact hfuel j (by omega)

/-! ## 5. The step -/

/-- **Level `i` after `thread_aging`**: the threads that stay, and behind them those that come from
    the level below. -/
def agedQueue (s : Sched) (i : Int) : List Tid :=
  (if i = 63 then s.readyList i else (s.readyList i).filter fun t => !eligible s t) ++
    if i = 0 then [] else (s.readyList (i - 1)).filter (eligible s)

theorem agedFrom_queue (s : Sched) (i : Fin 64) :
    (agedFrom s 0).readyList (i : ℕ) = agedQueue s (i : ℕ) := by
  unfold agedFrom agedQueue
  dsimp only
  congr 1
  · by_cases h : ((i : ℕ) : Int) = 63
    · rw [if_pos h, if_neg (by omega)]
    · rw [if_neg h, if_pos (by omega)]
  · by_cases h : ((i : ℕ) : Int) = 0
    · rw [if_pos h, if_neg (by omega)]
    · rw [if_neg h, if_pos (by omega)]

/-- **Who is promoted**: a thread that waits below `PRI_MAX`, and is due. -/
def Promoted (s : Sched) (t : Tid) : Prop :=
  ∃ i : ℕ, i < 63 ∧ t ∈ s.readyList i ∧ eligible s t = true

theorem promotedFrom_zero (h : RunInv s) (t : Tid) : PromotedFrom s 0 t ↔ Promoted s t := by
  constructor
  · intro hp
    obtain ⟨h0, h63, hm, he⟩ := hp
    have hcast : ((s.priority t).toNat : Int) = s.priority t := Int.toNat_of_nonneg h0
    exact ⟨(s.priority t).toNat, by omega, hcast.symm ▸ hm, he⟩
  · intro hp
    obtain ⟨i, hi, hm, he⟩ := hp
    have hp : s.priority t = i := h.filed.key_eq hm
    exact ⟨by omega, by omega, hp.symm ▸ hm, he⟩

theorem mem_agedQueue (s : Sched) (t : Tid) :
    (∃ i : Fin 64, t ∈ agedQueue s (i : ℕ)) ↔ ∃ i : Fin 64, t ∈ s.readyList (i : ℕ) := by
  unfold agedQueue
  constructor
  · intro hm
    obtain ⟨i, hm⟩ := hm
    rcases mem_append.mp hm with hm | hm
    · refine ⟨i, ?_⟩
      split at hm
      · exact hm
      · exact (mem_filter.mp hm).1
    · split at hm
      · exact absurd hm not_mem_nil
      · rename_i h0
        refine ⟨⟨i - 1, by omega⟩, ?_⟩
        rw [show (((⟨i - 1, by omega⟩ : Fin 64) : ℕ) : Int) = (i : ℕ) - 1 by
          show ((i - 1 : ℕ) : Int) = _; omega]
        exact (mem_filter.mp hm).1
  · intro hm
    obtain ⟨i, hm⟩ := hm
    by_cases hlast : ((i : ℕ) : Int) = 63
    · exact ⟨i, mem_append_left _ (by rw [if_pos hlast]; exact hm)⟩
    · cases he : eligible s t with
      | false =>
        refine ⟨i, mem_append_left _ ?_⟩
        rw [if_neg hlast]
        exact mem_filter.mpr ⟨hm, by rw [he]; rfl⟩
      | true =>
        refine ⟨⟨i + 1, by omega⟩, mem_append_right _ ?_⟩
        rw [show (((⟨i + 1, by omega⟩ : Fin 64) : ℕ) : Int) = (i : ℕ) + 1 from
          Int.natCast_succ i, if_neg (by omega), Int.add_sub_cancel]
        exact mem_filter.mpr ⟨hm, he⟩

/-- **The aging step.** In an interrupt, on links that hold the ready queues, `thread_aging` ends;
    every level keeps its threads that are not due, and level 63 all, followed by those that are due
    of the level below; the threads that moved, and only those, are higher by one; every thread
    stands in one queue afterwards, once, and no thread is lost; and a yield is asked for if one has
    come above the running thread. -/
theorem thread_aging_step (s : Sched) (links : Links ReadyNode) (fuel : ℕ) (h : RunInv s)
    (hintr : s.inExternalIntr = true) (hl : Held links s.readyList)
    (hfuel : ∀ i : Fin 64, (s.readyList (i : ℕ)).length < fuel) :
    ∃ links' thr' yield, threadAgingLinks fuel links s = some (links', thr', yield) ∧
      Held links' (agedQueue s) ∧
      (∀ t, Promoted s t → thr' t = { s.thr t with priority := s.priority t + 1 }) ∧
      (∀ t, ¬ Promoted s t → thr' t = s.thr t) ∧
      (∀ t, (∃ i : Fin 64, t ∈ agedQueue s (i : ℕ)) ↔ ∃ i : Fin 64, t ∈ s.readyList (i : ℕ)) ∧
      (∀ t (i : Fin 64), t ∈ agedQueue s (i : ℕ) →
        (agedQueue s (i : ℕ)).count t = 1 ∧ (thr' t).priority = (i : ℕ)) ∧
      (yield = true ↔ s.yieldOnReturn = true ∨
        ∃ t, Promoted s t ∧ s.priority s.running < s.priority t + 1) := by
  obtain ⟨y, hfold, hinv, hy⟩ := agingLevels_eq (y := false) h (Nat.le_refl 63)
    (by rw [agedFrom_top]; exact h)
    ⟨fun hf => absurd hf Bool.false_ne_true, fun hc => absurd hc (not_asksYield_top s)⟩
  rw [agedFrom_top] at hfold
  obtain ⟨links', hrun, hl'⟩ := agingLevels_spec (y := false) (Nat.le_refl 63) h hl
    fun j hj => hfuel ⟨j, by omega⟩
  rw [hfold] at hrun hl'
  have hasks : AsksYield s 0 ↔ ∃ t, Promoted s t ∧ s.priority s.running < s.priority t + 1 :=
    exists_congr fun t => and_congr (promotedFrom_zero h t) Iff.rfl
  refine ⟨links', (agedFrom s 0).thr, s.yieldOnReturn || y, ?_, ?_, fun t ht => ?_, fun t ht => ?_,
    mem_agedQueue s, fun t i hm => ?_, ?_⟩
  · unfold threadAgingLinks
    rw [hrun]
    show (if y then _ else _) = _
    cases y with
    | true =>
      rw [if_pos rfl, if_pos hintr, Bool.or_true]
    | false =>
      rw [if_neg Bool.false_ne_true, Bool.or_false]
  · unfold Held at hl' ⊢
    have hq : (fun i : Fin 64 => ((agedFrom s 0).readyList (i : ℕ)).map ReadyNode.elem) =
        fun i : Fin 64 => (agedQueue s (i : ℕ)).map .elem :=
      funext fun i => by rw [agedFrom_queue]
    rw [← hq]
    exact hl'
  · exact if_pos ((promotedFrom_zero h t).mpr ht)
  · exact if_neg fun hp => ht ((promotedFrom_zero h t).mp hp)
  · rw [← agedFrom_queue] at hm ⊢
    exact ⟨count_eq_one_of_mem (hinv.filed.nodup _) hm, hinv.filed.key_eq hm⟩
  · rw [Bool.or_eq_true, hy, hasks]

/-- The links after the boot: the idle thread, number 1, waits on level 0. -/
def bootLinks : Links ReadyNode where
  next
    | .head 0 => some (.elem 1)
    | .head (i + 1) => some (.tail (i + 1))
    | .elem _ => some (.tail 0)
    | .tail _ => none
  prev
    | .tail 0 => some (.elem 1)
    | .tail (i + 1) => some (.head (i + 1))
    | .elem _ => some (.head 0)
    | .head _ => none

theorem bootLinks_held : Held bootLinks (push (fun _ => []) 0 1) := by
  have hq : ∀ i : ℕ, push (fun _ => []) (0 : Int) (1 : Tid) ((i + 1 : ℕ) : Int) = [] :=
    fun i => push_ne _ _ (by omega)
  have hlevel : ∀ (i : Fin 64) (a : ReadyNode), a ∈ nodes (.head (i : ℕ))
      ((push (fun _ => []) (0 : Int) (1 : Tid) (i : ℕ)).map .elem) (.tail (i : ℕ)) →
      a = .head i ∨ a = .tail i ∨ a = .elem 1 ∧ (i : ℕ) = 0 := by
    intro i a ha
    obtain ⟨i, hi⟩ := i
    cases i with
    | zero => simpa [nodes, or_comm, or_left_comm] using ha
    | succ i =>
      rw [hq] at ha
      simpa [nodes] using ha
  refine ⟨fun i => ?_, fun i j hij a ha hb => ?_⟩
  · obtain ⟨i, hi⟩ := i
    cases i with
    | zero =>
      show DList bootLinks (.head 0) [.elem 1] (.tail 0)
      exact ⟨by decide, .cons_cons ⟨rfl, rfl⟩ (.cons_cons ⟨rfl, rfl⟩ (.singleton _)), rfl, rfl⟩
    | succ i =>
      rw [hq]
      exact ⟨by simp [nodes], .cons_cons ⟨rfl, rfl⟩ (.singleton _), rfl, rfl⟩
  · have hne : (i : ℕ) ≠ j := fun e => hij (Fin.ext e)
    rcases hlevel i a ha with rfl | rfl | ⟨rfl, hi⟩ <;> rcases hlevel j _ hb with h | h | ⟨h, hj⟩
    all_goals first
      | exact hne (ReadyNode.head.inj h)
      | exact hne (ReadyNode.tail.inj h)
      | exact hne (hi.trans hj.symm)
      | cases h

/-- The first tick after the boot promotes the idle thread. -/
theorem thread_aging_step_boot : ∃ s links' thr' yield,
    threadStart (threadInit false true) = some s ∧
    threadAgingLinks 2 bootLinks (intrEnter s) = some (links', thr', yield) ∧
    (thr' 1).priority = 1 ∧ Held links' (agedQueue (intrEnter s)) := by
  obtain ⟨s, hs, hq, hthr, hticks⟩ : ∃ s, threadStart (threadInit false true) = some s ∧
      s.readyList = push (fun _ => []) 0 1 ∧ (s.thr 1).priority = 0 ∧
      s.ticks - (s.thr 1).recentUnused = 0 := ⟨_, rfl, rfl, rfl, rfl⟩
  have hinv : RunInv (intrEnter s) :=
    (threadStart_inv (threadInit_inv false true) hs).congr (fun _ => rfl) (fun _ => rfl)
      (fun _ => rfl) rfl rfl rfl rfl rfl rfl
  have hheld : Held bootLinks (intrEnter s).readyList := hq ▸ bootLinks_held
  obtain ⟨links', thr', yield, hrun, hl, hup, -⟩ :=
    thread_aging_step (intrEnter s) bootLinks 2 hinv rfl hheld fun i => by
      show (s.readyList (i : ℕ)).length < 2
      rw [hq]
      by_cases hi : ((i : ℕ) : Int) = 0
      · rw [hi, push_self]
        decide
      · rw [push_ne _ _ hi]
        decide
  have hmem : 1 ∈ (intrEnter s).readyList ((0 : ℕ) : Int) := by
    show 1 ∈ s.readyList 0
    rw [hq, push_self]
    exact mem_singleton.mpr rfl
  have hdue : eligible (intrEnter s) 1 = true := by
    show decide ((s.ticks - (s.thr 1).recentUnused) % 100 = 0) = true
    rw [hticks]
    rfl
  refine ⟨s, links', thr', yield, hs, hrun, ?_, hl⟩
  rw [hup 1 ⟨0, by decide, hmem, hdue⟩]
  show (s.thr 1).priority + 1 = 1
  rw [hthr]
  rfl

end Pintos
