/-
  Subject:   The doubly linked lists of lib/kernel/list.c, at the level of their links.

  * A `struct list_elem` is a node of `Lib.Links`; the functions read and write links one at a time,
    in the order of the source. A failed `ASSERT` or an access through a null pointer is `none`.
  * A loop has as many turns as its fuel, and runs out of it with `none`; that enough fuel is as
    much as the list is long is part of every result.
  * **`list_surgery`**: `list_reverse` and `list_splice` in any family of disjoint lists.
-/
import Pintos.Lib.LinkedList

namespace Pintos

open Lib Function List

variable {α ι : Type*}

/-! ## 1. The code -/

/-- `struct list`: its two header elements. -/
structure KList (α : Type*) where
  head : α
  tail : α

/-- `is_head`. -/
def isHead (m : Links α) (elem : α) : Bool := (m.prev elem).isNone && (m.next elem).isSome

/-- `is_interior`. -/
def isInterior (m : Links α) (elem : α) : Bool := (m.prev elem).isSome && (m.next elem).isSome

/-- `is_tail`. -/
def isTail (m : Links α) (elem : α) : Bool := (m.prev elem).isSome && (m.next elem).isNone

/-- `list_begin`. -/
def listBegin (m : Links α) (list : KList α) : Option α := m.next list.head

/-- `list_next`. -/
def listNext (m : Links α) (elem : α) : Option α :=
  if isHead m elem || isInterior m elem then m.next elem else none

/-- `list_prev`. -/
def listPrev (m : Links α) (elem : α) : Option α :=
  if isInterior m elem || isTail m elem then m.prev elem else none

variable [DecidableEq α]

/-- `list_insert`. -/
def listInsert (m : Links α) (before elem : α) : Option (Links α) :=
  if isInterior m before || isTail m before then do
    let m := m.setPrev elem (m.prev before)
    let m := m.setNext elem (some before)
    let p ← m.prev before
    let m := m.setNext p (some elem)
    some (m.setPrev before (some elem))
  else none

/-- `list_push_back`. -/
def listPushBack (m : Links α) (list : KList α) (elem : α) : Option (Links α) :=
  listInsert m list.tail elem

/-- `list_splice`. -/
def listSplice (m : Links α) (before first last : α) : Option (Links α) :=
  if isInterior m before || isTail m before then
    if first = last then some m
    else do
      let last ← listPrev m last
      if isInterior m first && isInterior m last then do
        -- cleanly remove the range from its current list
        let p ← m.prev first
        let m := m.setNext p (m.next last)
        let n ← m.next last
        let m := m.setPrev n (m.prev first)
        -- splice it into the new list
        let m := m.setPrev first (m.prev before)
        let m := m.setNext last (some before)
        let b ← m.prev before
        let m := m.setNext b (some first)
        some (m.setPrev before (some last))
      else none
  else none

/-- `list_remove`, with the element that followed. -/
def listRemove (m : Links α) (elem : α) : Option (Links α × α) :=
  if isInterior m elem then do
    let p ← m.prev elem
    let m := m.setNext p (m.next elem)
    let n ← m.next elem
    let m := m.setPrev n (m.prev elem)
    let next ← m.next elem
    some (m, next)
  else none

/-- The loop of `list_reverse`; `e_ = e_->prev` follows a link that was just swapped. -/
def reverseLoop : ℕ → Links α → α → α → Option (Links α)
  | 0, _, _, _ => none
  | fuel + 1, m, e, tail =>
    if e = tail then some m
    else
      let m := (m.setPrev e (m.next e)).setNext e (m.prev e)
      (m.prev e).bind fun e => reverseLoop fuel m e tail

/-- `list_reverse`. -/
def listReverse (fuel : ℕ) (m : Links α) (list : KList α) : Option (Links α) := do
  let begin' ← listBegin m list
  if begin' = list.tail then some m
  else do
    let m ← reverseLoop fuel m begin' list.tail
    let m := (m.setNext list.head (m.prev list.tail)).setPrev list.tail (m.next list.head)
    let a ← m.next list.head
    let b ← m.prev list.tail
    some ((m.setPrev a (m.next b)).setNext b (m.prev a))

/-! ## 2. Reading a list -/

section Reading

variable {m : Links α} {h t x : α} {l A B : List α}

omit [DecidableEq α]

theorem listBegin_eq (hl : DList m h l t) : listBegin m ⟨h, t⟩ = some (l.headD t) := hl.next_head

theorem isInterior_elem (hl : DList m h (A ++ x :: B) t) : isInterior m x = true := by
  unfold isInterior
  rw [hl.prev_elem, hl.next_elem]
  rfl

theorem isHead_head (hl : DList m h l t) : isHead m h = true := by
  unfold isHead
  rw [hl.headPrev, hl.next_head]
  rfl

theorem isTail_tail (hl : DList m h l t) : isTail m t = true := by
  unfold isTail
  rw [hl.tailNext, hl.prev_tail]
  rfl

theorem interior_or_tail (hl : DList m h (A ++ B) t) :
    (isInterior m (B.headD t) || isTail m (B.headD t)) = true := by
  cases B with
  | nil =>
    rw [append_nil] at hl
    show (isInterior m t || isTail m t) = true
    rw [isTail_tail hl, Bool.or_true]
  | cons x B =>
    show (isInterior m x || isTail m x) = true
    rw [isInterior_elem hl, Bool.true_or]

theorem interior_or_tail_mem (hl : DList m h l t) (hx : x ∈ l ++ [t]) :
    (isInterior m x || isTail m x) = true := by
  rcases mem_append.mp hx with hx | hx
  · obtain ⟨A, B, rfl⟩ := append_of_mem hx
    rw [isInterior_elem hl, Bool.true_or]
  · rw [mem_singleton.mp hx, isTail_tail hl, Bool.or_true]

theorem listPrev_eq (hl : DList m h (A ++ B) t) : listPrev m (B.headD t) = some (A.getLastD h) := by
  unfold listPrev
  rw [if_pos (interior_or_tail hl)]
  exact hl.joined.2

theorem listNext_eq (hl : DList m h (A ++ B) t) : listNext m (A.getLastD h) = some (B.headD t) := by
  unfold listNext
  rw [if_pos]
  · exact hl.joined.1
  · rcases eq_nil_or_concat A with rfl | ⟨A, x, rfl⟩
    · show (isHead m h || _) = true
      rw [isHead_head hl, Bool.true_or]
    · rw [concat_eq_append] at hl ⊢
      rw [getLastD_concat]
      rw [append_assoc, singleton_append] at hl
      rw [isInterior_elem hl, Bool.or_true]

theorem listNext_elem (hl : DList m h (A ++ x :: B) t) : listNext m x = some (B.headD t) := by
  rw [append_cons] at hl
  have hn := listNext_eq hl
  rwa [getLastD_concat] at hn

end Reading

/-! ## 3. Removing, inserting and splicing -/

section Surgery

variable {m : Links α} {head tail : ι → α} {q : ι → List α} {i j : ι} {x : α}
variable {A B C D R : List α}

variable {first h h' last t t' : α}

/-- **The memory after `list_remove`**: the neighbours are joined. -/
theorem listRemove_eq (hl : DList m h (A ++ x :: B) t) :
    listRemove m x = some (m.join (A.getLastD h) (B.headD t), B.headD t) := by
  unfold listRemove
  rw [if_pos (isInterior_elem hl), hl.prev_elem, hl.next_elem]
  simp [Links.join, hl.prev_elem, hl.next_elem]

/-- **The memory after `list_insert`** of a node that is in no list. -/
theorem listInsert_eq (hl : DList m h (A ++ B) t) (hx : x ∉ nodes h (A ++ B) t) :
    listInsert m (B.headD t) x = some (m.graft (A.getLastD h) x x (B.headD t)) := by
  have hne : B.headD t ≠ x := fun e => hx (e ▸ DList.succ_mem h t A B)
  unfold listInsert
  rw [if_pos (interior_or_tail hl), hl.joined.2]
  simp only [Links.setNext_prev, Links.setPrev_prev, if_neg hne, hl.joined.2]
  rfl

/-- **`list_remove`** in a family of lists. The node keeps its own links, and is in no list. -/
theorem listRemove_spec [DecidableEq ι] (hq : Lists m head tail q) (hi : q i = A ++ x :: B) :
    ∃ m', listRemove m x = some (m', B.headD (tail i)) ∧
      Lists m' head tail (update q i (A ++ B)) ∧
      ∀ j, x ∉ nodes (head j) (update q i (A ++ B) j) (tail j) := by
  have hl := hq.list i
  rw [hi] at hl
  obtain ⟨hq', -, -, hout⟩ := hq.detach (R := [x]) hi (cons_ne_nil _ _)
  exact ⟨_, listRemove_eq hl, hq', fun j => hout j x mem_cons_self⟩

theorem listInsert_spec [DecidableEq ι] (hq : Lists m head tail q) (hi : q i = A ++ B)
    (hx : ∀ j, x ∉ nodes (head j) (q j) (tail j)) :
    ∃ m', listInsert m (B.headD (tail i)) x = some m' ∧
      Lists m' head tail (update q i (A ++ x :: B)) := by
  have hl := hq.list i
  have hxi := hx i
  rw [hi] at hl hxi
  refine ⟨_, listInsert_eq hl hxi, ?_⟩
  refine hq.attach (R := [x]) hi (.singleton x) (by simp) (fun j a ha => ?_) rfl rfl
  rw [mem_singleton.mp ha]
  exact hx j

/-- **`list_splice`** of a range that is not empty: it leaves its list and joins the other one. -/
theorem listSplice_eq (hl : DList m h (A ++ (R ++ B)) t)
    (hl' : DList (m.join (A.getLastD h) (B.headD t)) h' (C ++ D) t') (hfirst : R.head? = some first)
    (hlast : R.getLast? = some last) (hout : first ∉ nodes h' (C ++ D) t')
    (hbefore : (isInterior m (D.headD t') || isTail m (D.headD t')) = true) :
    listSplice m (D.headD t') first (B.headD t) =
      some ((m.join (A.getLastD h) (B.headD t)).graft (C.getLastD h') first last (D.headD t')) := by
  have hR : R = first :: R.tail := eq_cons_of_mem_head? hfirst
  have hR' : R = R.dropLast ++ [last] := (dropLast_append_getLast? last hlast).symm
  have hlf : DList m h (A ++ first :: (R.tail ++ B)) t := by
    rw [hR] at hl
    exact hl
  have hll : DList m h ((A ++ R.dropLast) ++ last :: B) t := by
    rw [hR', append_assoc, singleton_append, ← append_assoc] at hl
    exact hl
  obtain ⟨hpred, hsucc⟩ := DList.range_apart hl.distinct
  have hne : first ≠ B.headD t := fun e => hsucc (e ▸ mem_of_mem_head? hfirst)
  have hnl : last ≠ A.getLastD h := fun e => hpred (e ▸ mem_of_getLast? hlast)
  have hnb : D.headD t' ≠ first := fun e => hout (e ▸ DList.succ_mem h' t' C D)
  have hprev : listPrev m (B.headD t) = some last := by
    rw [append_cons] at hll
    have hp := listPrev_eq hll
    rwa [getLastD_concat] at hp
  have hjoin : (m.setNext (A.getLastD h) (some (B.headD t))).setPrev (B.headD t)
      (some (A.getLastD h)) = m.join (A.getLastD h) (B.headD t) := rfl
  have hb := hl'.joined.2
  rw [m.join_prev] at hb
  unfold listSplice
  rw [if_pos hbefore, if_neg hne, hprev]
  simp only [Option.bind_eq_bind, Option.bind_some, isInterior_elem hlf, isInterior_elem hll,
    Bool.and_self, if_true, hlf.prev_elem, hll.next_elem, Links.setNext_next, if_neg hnl,
    Links.setNext_prev, hjoin, Links.setPrev_prev, if_neg hnb, hb]
  rfl

/-- **`list_splice`** in a family of lists. The range `R` of list `i` goes before a position of list
    `j`, which may be the same one; the position is one of the list without the range. -/
theorem listSplice_spec [DecidableEq ι] (hq : Lists m head tail q) (hi : q i = A ++ (R ++ B))
    (hj : update q i (A ++ B) j = C ++ D) :
    ∃ m', listSplice m (D.headD (tail j)) ((R ++ B).headD (tail i)) (B.headD (tail i)) = some m' ∧
      Lists m' head tail
        (update (update q i (A ++ B)) j (C ++ (R ++ D))) ∧
      ∀ a, a ∉ nodes (head i) (q i) (tail i) → a ∉ nodes (head j) (q j) (tail j) →
        SameAt m m' a := by
  -- the elements of list `j` without the range are among those it had
  have hsub : ∀ a ∈ C ++ D, a ∈ q j := by
    intro a ha
    rw [← hj] at ha
    by_cases hji : j = i
    · subst hji
      rw [update_self] at ha
      rw [hi]
      simp only [mem_append] at ha ⊢
      tauto
    · rwa [update_of_ne hji] at ha
  have hsubN : ∀ a ∈ nodes (head j) (C ++ D) (tail j), a ∈ nodes (head j) (q j) (tail j) := by
    intro a ha
    have hCD := hsub a
    simp only [nodes, mem_cons, mem_append] at ha hCD ⊢
    tauto
  have hbefore : (isInterior m (D.headD (tail j)) || isTail m (D.headD (tail j))) = true := by
    refine interior_or_tail_mem (hq.list j) ?_
    have hmem := DList.headD_mem D (tail j)
    have hCD := hsub (D.headD (tail j))
    simp only [mem_append] at hmem hCD ⊢
    tauto
  cases hR : R with
  | nil =>
    subst hR
    refine ⟨m, ?_, ?_, fun a _ _ => ⟨rfl, rfl⟩⟩
    · unfold listSplice
      rw [if_pos hbefore]
      exact if_pos rfl
    · rw [nil_append, ← hj, update_eq_self, ← nil_append B, ← hi,
        update_eq_self]
      exact hq
  | cons first R₁ =>
    have hRne : first :: R₁ ≠ [] := cons_ne_nil _ _
    rw [hR] at hi
    have hl := hq.list i
    rw [hi] at hl
    obtain ⟨hq1, hRpath, hRnd, hRout⟩ := hq.detach hi hRne
    have hl' := hq1.list j
    rw [hj] at hl'
    have hlast := List.getLast?_eq_some_getLast hRne
    have hout := hRout j first mem_cons_self
    rw [hj] at hout
    refine ⟨_, listSplice_eq hl hl' rfl hlast hout hbefore,
      hq1.attach hj hRpath hRnd hRout rfl hlast, fun a hai haj => ?_⟩
    have hne : ∀ b ∈ nodes (head i) (q i) (tail i), a ≠ b := fun b hb e => hai (e ▸ hb)
    have hne' : ∀ b ∈ nodes (head j) (C ++ D) (tail j), a ≠ b :=
      fun b hb e => haj (e ▸ hsubN b hb)
    rw [hi] at hne
    have hmemR : ∀ b ∈ first :: R₁, b ∈ nodes (head i) (A ++ (first :: R₁ ++ B)) (tail i) :=
      fun b hb => by
        simp only [nodes, mem_cons, mem_append] at hb ⊢
        tauto
    refine (sameAt_join m (hne _ (DList.pred_mem _ _ A _)) (hne _ ?_)).trans
      (sameAt_graft _ (hne' _ (DList.pred_mem _ _ C D)) (hne _ (hmemR _ mem_cons_self))
        (hne _ (hmemR _ (mem_of_getLast? hlast))) (hne' _ (DList.succ_mem _ _ C D)))
    rw [← append_assoc]
    exact DList.succ_mem _ _ _ B

theorem listSplice_forward {M : List α} (hl : DList m h (C ++ (M ++ (R ++ B))) t) :
    ∃ m', listSplice m ((M ++ B).headD t) ((R ++ B).headD t) (B.headD t) = some m' ∧
      DList m' h (C ++ (R ++ (M ++ B))) t := by
  have hq : Lists m (fun _ : Unit => h) (fun _ => t) fun _ => C ++ (M ++ (R ++ B)) :=
    ⟨fun _ => hl, fun i j hij => absurd rfl hij⟩
  obtain ⟨m', hrun, hq', -⟩ := listSplice_spec (i := ()) (j := ()) (A := C ++ M) (C := C)
    (D := M ++ B) hq (append_assoc C M _).symm
    (by rw [update_self, append_assoc])
  have hl' := hq'.list ()
  rw [update_self] at hl'
  exact ⟨m', hrun, hl'⟩

end Surgery

/-! ## 4. Reversing -/

section Reverse

variable {m : Links α} {h t : α} {l B : List α}

variable {fuel : ℕ}

/-- **The loop of `list_reverse`** swaps the links of each element, by induction on the elements
    that are left. -/
theorem reverseLoop_spec (hnext : (B ++ [t]).IsChain fun a b => m.next a = some b)
    (hd : (B ++ [t]).Nodup) (hfuel : B.length < fuel) :
    ∃ m', reverseLoop fuel m (B.headD t) t = some m' ∧
      (∀ a, m'.next a = if a ∈ B then m.prev a else m.next a) ∧
      ∀ a, m'.prev a = if a ∈ B then m.next a else m.prev a := by
  induction B generalizing m fuel with
  | nil =>
    obtain ⟨fuel, rfl⟩ := Nat.exists_eq_succ_of_ne_zero (Nat.ne_zero_of_lt hfuel)
    refine ⟨m, if_pos rfl, fun a => ?_, fun a => ?_⟩ <;> rw [if_neg not_mem_nil]
  | cons x B ih =>
    obtain ⟨fuel, rfl⟩ := Nat.exists_eq_succ_of_ne_zero (Nat.ne_zero_of_lt hfuel)
    obtain ⟨hx, hd⟩ := nodup_cons.mp hd
    have hxB : x ∉ B := fun hm => hx (mem_append_left _ hm)
    have hne : x ≠ t := fun e => hx (e ▸ mem_append_right B (mem_singleton.mpr rfl))
    have hxn : m.next x = some (B.headD t) := by
      cases B with
      | nil => exact (isChain_cons_cons.mp hnext).1
      | cons y B => exact (isChain_cons_cons.mp hnext).1
    -- the rest of the list is as it was
    let m₁ : Links α := (m.setPrev x (m.next x)).setNext x (m.prev x)
    have hn1 : ∀ a, m₁.next a = if a = x then m.prev x else m.next a := fun a => by
      simp [m₁]
    have hp1 : ∀ a, m₁.prev a = if a = x then m.next x else m.prev a := fun a => by
      simp [m₁]
    have hnext1 : (B ++ [t]).IsChain fun a b => m₁.next a = some b := by
      refine List.IsChain.imp_of_mem_imp (fun a b ha _ hab => ?_) hnext.tail
      rw [hn1, if_neg fun e : a = x => hx (e ▸ ha)]
      exact hab
    obtain ⟨m', hrun, hn', hp'⟩ := ih hnext1 hd (Nat.lt_of_succ_lt_succ hfuel)
    refine ⟨m', ?_, fun a => ?_, fun a => ?_⟩
    · show reverseLoop (fuel + 1) m x t = some m'
      unfold reverseLoop
      rw [if_neg hne]
      show (m₁.prev x).bind (fun e => reverseLoop fuel m₁ e t) = some m'
      rw [hp1, if_pos rfl, hxn]
      exact hrun
    · rw [hn', hn1, hp1]
      by_cases ha : a = x
      · subst ha
        simp [hxB]
      · simp [ha]
    · rw [hp', hn1, hp1]
      by_cases ha : a = x
      · subst ha
        simp [hxB]
      · simp [ha]

/-- The two swaps after the loop put the reversed elements between the headers. -/
theorem reverse_ends {m₁ : Links α} {x z : α} (hxh : x ≠ h) (hzt : z ≠ t)
    (hht : m₁.next h = some x) (htp : m₁.prev t = some z) (hxn : m₁.next x = some h)
    (hzp : m₁.prev z = some t) : (do
      let m := (m₁.setNext h (m₁.prev t)).setPrev t (m₁.next h)
      let a ← m.next h
      let b ← m.prev t
      some ((m.setPrev a (m.next b)).setNext b (m.prev a))) = some (m₁.graft h z x t) := by
  simp only [hht, htp, Links.setPrev_next, Links.setNext_next, if_true, Links.setPrev_prev,
    Links.setNext_prev, Option.bind_eq_bind, Option.bind_some, if_neg hxh, if_neg hzt, hxn, hzp]
  congr 1
  have hext : ∀ m m' : Links α, (∀ a, m.next a = m'.next a) → (∀ a, m.prev a = m'.prev a) → m = m' :=
    fun ⟨_, _⟩ ⟨_, _⟩ h1 h2 => by
      congr
      · exact funext h1
      · exact funext h2
  refine hext _ _ (fun a => ?_) fun a => ?_
  · rw [m₁.graft_next]
    simp only [Links.setPrev_next, Links.setNext_next]
    by_cases hax : a = x
    · rw [if_pos hax, if_neg (hax ▸ hxh), if_pos hax]
    · rw [if_neg hax, if_neg hax]
  · rw [m₁.graft_prev]
    simp only [Links.setNext_prev, Links.setPrev_prev]
    by_cases haz : a = z
    · rw [if_pos haz, if_neg (haz ▸ hzt), if_pos haz]
    · rw [if_neg haz, if_neg haz]

/-- **`list_reverse`** of one list: the sequence is reversed, and no other node is touched. -/
theorem listReverse_list (hl : DList m h l t) (hfuel : l.length < fuel) :
    ∃ m', listReverse fuel m ⟨h, t⟩ = some m' ∧ DList m' h l.reverse t ∧
      ∀ a, a ∉ nodes h l t → SameAt m m' a := by
  have hbegin := listBegin_eq hl
  cases hcase : l with
  | nil =>
    subst hcase
    refine ⟨m, ?_, hl, fun a _ => ⟨rfl, rfl⟩⟩
    unfold listReverse
    rw [hbegin]
    exact if_pos rfl
  | cons x l' =>
    rw [← hcase]
    have hne : l ≠ [] := hcase ▸ cons_ne_nil x l'
    obtain ⟨hh, hlt⟩ := nodup_cons.mp hl.distinct
    obtain ⟨hlnd, -, htl⟩ := nodup_append.mp hlt
    have htl : t ∉ l := fun hm => htl t hm t (mem_singleton.mpr rfl) rfl
    have hhl : h ∉ l := fun hm => hh (mem_append_left _ hm)
    have hht : h ≠ t := fun e => hh (e ▸ mem_append_right l (mem_singleton.mpr rfl))
    have hpath : Path m (l ++ [t]) := hl.path.tail
    obtain ⟨m₁, hloop, hn1, hp1⟩ := reverseLoop_spec (hpath.imp fun a b hab => hab.1) hlt hfuel
    obtain ⟨z, hz⟩ : ∃ z, l.getLast? = some z := ⟨_, List.getLast?_eq_some_getLast hne⟩
    have hxl : x ∈ l := hcase ▸ mem_cons_self
    have hzl : z ∈ l := mem_of_getLast? hz
    have hconcat : l.dropLast ++ [z] = l := dropLast_append_getLast? z hz
    have hxh : x ≠ h := fun e => hhl (e ▸ hxl)
    have hzt : z ≠ t := fun e => htl (e ▸ hzl)
    have hnh : m₁.next h = some x := by
      rw [hn1, if_neg hhl, hl.next_head, hcase]
      rfl
    have hpt : m₁.prev t = some z := by
      rw [hp1, if_neg htl, hl.prev_tail, ← hconcat, getLastD_concat]
    have hnx : m₁.next x = some h := by
      rw [hn1, if_pos hxl]
      rw [hcase] at hl
      exact DList.prev_elem (A := []) hl
    have hpz : m₁.prev z = some t := by
      rw [hp1, if_pos hzl]
      rw [← hconcat] at hl
      exact hl.next_elem
    -- in the reversed order each element leads to the one that was before it
    have hrev : Path m₁ l.reverse := by
      refine isChain_reverse.mpr ?_
      refine List.IsChain.imp_of_mem_imp (fun a b ha hb hab => ?_)
        (isChain_append.mp hpath).1
      exact ⟨by rw [hn1, if_pos hb]; exact hab.2, by rw [hp1, if_pos ha]; exact hab.1⟩
    have hdist : (nodes h l.reverse t).Nodup := by
      refine (List.Perm.nodup_iff ?_).mp hl.distinct
      exact List.Perm.cons h (List.Perm.append_right [t] (reverse_perm l).symm)
    refine ⟨m₁.graft h z x t, ?_, ⟨hdist, ?_, ?_, ?_⟩, fun a ha => ?_⟩
    · unfold listReverse
      rw [hbegin]
      simp only [Option.bind_eq_bind, Option.bind_some]
      have hbt : l.headD t ≠ t := by
        rw [hcase]
        exact fun e => htl (e ▸ hxl)
      rw [if_neg hbt, hloop]
      exact reverse_ends hxh hzt hnh hpt hnx hpz
    · refine Path.attach (U := []) (.singleton h) (.singleton t) hrev ?_ ?_ hdist
      · rw [List.head?_reverse, hz]
      · rw [List.getLast?_reverse, hcase]
        rfl
    · rw [m₁.graft_prev, if_neg hht, if_neg fun e : h = z => hhl (e ▸ hzl), hp1, if_neg hhl]
      exact hl.headPrev
    · rw [m₁.graft_next, if_neg hht.symm, if_neg fun e : t = x => htl (e ▸ hxl), hn1, if_neg htl]
      exact hl.tailNext
    · have hah : a ≠ h := by
        rintro rfl
        exact ha mem_cons_self
      have hal : a ∉ l := fun hm => ha (by simp [nodes, hm])
      have hat : a ≠ t := by
        rintro rfl
        exact ha (by simp [nodes])
      refine ⟨?_, ?_⟩
      · rw [m₁.graft_next, if_neg hah, if_neg fun e : a = x => hal (e ▸ hxl), hn1, if_neg hal]
      · rw [m₁.graft_prev, if_neg hat, if_neg fun e : a = z => hal (e ▸ hzl), hp1, if_neg hal]

end Reverse

/-! ## 5. Any number of lists -/

variable [DecidableEq ι] {m : Links α} {head tail : ι → α} {q : ι → List α}

/-- **Reversing and splicing among any number of disjoint lists.** `list_reverse` reverses its list;
    `list_splice` moves the range `R` of list `i` to before a position of list `j` outside the
    range, in order; all lists stay well formed, and no node of another list is touched. -/
theorem list_surgery (hq : Lists m head tail q) :
    (∀ i fuel, (q i).length < fuel → ∃ m', listReverse fuel m ⟨head i, tail i⟩ = some m' ∧
      Lists m' head tail (update q i (q i).reverse) ∧
      ∀ j, j ≠ i → ∀ a ∈ nodes (head j) (q j) (tail j), SameAt m m' a) ∧
    (∀ i j A R B C D, q i = A ++ (R ++ B) → update q i (A ++ B) j = C ++ D →
      ∃ m', listSplice m (D.headD (tail j)) ((R ++ B).headD (tail i)) (B.headD (tail i)) = some m' ∧
        Lists m' head tail (update (update q i (A ++ B)) j (C ++ (R ++ D))) ∧
        ∀ k, k ≠ i → k ≠ j → ∀ a ∈ nodes (head k) (q k) (tail k), SameAt m m' a) := by
  constructor
  · intro i fuel hfuel
    obtain ⟨m', hrun, hl, hsame⟩ := listReverse_list (hq.list i) hfuel
    have hother : ∀ j, j ≠ i → ∀ a ∈ nodes (head j) (q j) (tail j), SameAt m m' a :=
      fun j hj a ha => hsame a (hq.apart j i hj a ha)
    refine ⟨m', hrun, hq.update hl hother fun j hj a ha => ?_, hother⟩
    exact hq.apart i j hj.symm a (by simp [nodes, mem_reverse.mp ha])
  · intro i j A R B C D hi hj
    obtain ⟨m', hrun, hq', hsame⟩ := listSplice_spec hq hi hj
    refine ⟨m', hrun, hq', fun k hki hkj a ha => ?_⟩
    exact hsame a (hq.apart k i hki a ha) (hq.apart k j hkj a ha)

/-- The list of the nodes 1 and 2, with the headers 0 and 3. -/
def twoNodes : Links ℕ where
  next a := if a < 3 then some (a + 1) else none
  prev a := if a = 0 then none else some (a - 1)

theorem twoNodes_lists : Lists twoNodes (fun _ : Unit => 0) (fun _ => 3) fun _ => [1, 2] where
  list _ := ⟨by decide, .cons_cons ⟨rfl, rfl⟩ (.cons_cons ⟨rfl, rfl⟩ (.cons_cons ⟨rfl, rfl⟩
    (.singleton 3))), rfl, rfl⟩
  apart i j h := absurd rfl h

theorem list_surgery_two : ∃ m', listReverse 3 twoNodes ⟨0, 3⟩ = some m' ∧
    Lists m' (fun _ : Unit => 0) (fun _ => 3) (update (fun _ => [1, 2]) () [2, 1]) := by
  obtain ⟨m', hrun, hq, -⟩ := (list_surgery twoNodes_lists).1 () 3 (by decide)
  exact ⟨m', hrun, hq⟩

end Pintos
