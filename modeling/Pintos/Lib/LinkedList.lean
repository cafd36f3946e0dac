/-
  Subject:   Doubly linked lists in a memory of links.

  A node is anything that has an address; `next` and `prev` of every node are in the memory, and
  `none` is the null pointer.

  `detach` and `attach` take a range of nodes out of a path, and put a path between two others. Every
  operation on a list is made of these two.
-/
import Mathlib.Tactic.Linarith
import Mathlib.Data.List.Chain

namespace Pintos.Lib

open List

variable {α ι : Type*}

/-! ## 1. Memory -/

/-- The links of all nodes. -/
structure Links (α : Type*) where
  next : α → Option α
  prev : α → Option α

namespace Links

variable [DecidableEq α]

def setNext (m : Links α) (a : α) (v : Option α) : Links α :=
  { m with next := Function.update m.next a v }

def setPrev (m : Links α) (a : α) (v : Option α) : Links α :=
  { m with prev := Function.update m.prev a v }

@[simp] theorem setNext_prev (m : Links α) (a : α) (v : Option α) :
    (m.setNext a v).prev = m.prev := rfl

@[simp] theorem setPrev_next (m : Links α) (a : α) (v : Option α) :
    (m.setPrev a v).next = m.next := rfl

@[simp] theorem setNext_next (m : Links α) (a b : α) (v : Option α) :
    (m.setNext a v).next b = if b = a then v else m.next b := by
  unfold setNext
  simp only [Function.update_apply]

@[simp] theorem setPrev_prev (m : Links α) (a b : α) (v : Option α) :
    (m.setPrev a v).prev b = if b = a then v else m.prev b := by
  unfold setPrev
  simp only [Function.update_apply]

/-- `p` and `n` become neighbours. -/
def join (m : Links α) (p n : α) : Links α := (m.setNext p (some n)).setPrev n (some p)

/-- The path from `first` to `last` is put between `c` and `d`. -/
def graft (m : Links α) (c first last d : α) : Links α :=
  (((m.setPrev first (some c)).setNext last (some d)).setNext c (some first)).setPrev d (some last)

theorem join_next (m : Links α) (p n a : α) :
    (m.join p n).next a = if a = p then some n else m.next a := by
  simp [join]

theorem join_prev (m : Links α) (p n a : α) :
    (m.join p n).prev a = if a = n then some p else m.prev a := by
  simp [join]

theorem graft_next (m : Links α) (c first last d a : α) : (m.graft c first last d).next a =
    if a = c then some first else if a = last then some d else m.next a := by
  simp [graft]

theorem graft_prev (m : Links α) (c first last d a : α) : (m.graft c first last d).prev a =
    if a = d then some last else if a = first then some c else m.prev a := by
  simp [graft]

end Links

/-! ## 2. Paths -/

/-- `b` follows `a`. -/
def Joined (m : Links α) (a b : α) : Prop := m.next a = some b ∧ m.prev b = some a

/-- **The nodes are linked in this order.** -/
def Path (m : Links α) (l : List α) : Prop := l.IsChain (Joined m)

/-- The links of the node are the same. -/
def SameAt (m m' : Links α) (a : α) : Prop := m'.next a = m.next a ∧ m'.prev a = m.prev a

variable {a c d first last x : α}

theorem SameAt.trans {m m₁ m₂ : Links α} (h : SameAt m m₁ a) (h' : SameAt m₁ m₂ a) :
    SameAt m m₂ a :=
  ⟨h'.1.trans h.1, h'.2.trans h.2⟩

theorem sameAt_join [DecidableEq α] (m : Links α) {p n : α} (hp : a ≠ p) (hn : a ≠ n) :
    SameAt m (m.join p n) a :=
  ⟨by rw [m.join_next, if_neg hp], by rw [m.join_prev, if_neg hn]⟩

theorem sameAt_graft [DecidableEq α] (m : Links α) (hc : a ≠ c) (hf : a ≠ first) (hl : a ≠ last)
    (hd : a ≠ d) : SameAt m (m.graft c first last d) a :=
  ⟨by rw [m.graft_next, if_neg hc, if_neg hl], by rw [m.graft_prev, if_neg hd, if_neg hf]⟩

section Path

variable {m m' : Links α} {l X Y R : List α} {p n : α}

/-- A path depends on the outgoing links of all but its last node and the links back of all but its
    first. -/
theorem Path.congr (h : Path m l) (hn : ∀ a ∈ l.dropLast, m'.next a = m.next a)
    (hp : ∀ a ∈ l.tail, m'.prev a = m.prev a) : Path m' l := by
  induction h with
  | nil => exact .nil
  | singleton a => exact .singleton a
  | @cons_cons a b l hab h ih =>
    refine .cons_cons ⟨?_, ?_⟩ (ih (fun x hx => hn x ?_) fun x hx => hp x ?_)
    · exact (hn a mem_cons_self).trans hab.1
    · exact (hp b mem_cons_self).trans hab.2
    · exact mem_cons_of_mem _ hx
    · exact mem_cons_of_mem _ hx

variable [DecidableEq α]

/-- **A range is taken out**: its neighbours are joined, and the range is a path of its own. -/
theorem Path.detach (h : Path m (X ++ p :: (R ++ n :: Y))) (hd : (X ++ p :: (R ++ n :: Y)).Nodup) :
    Path (m.join p n) (X ++ p :: n :: Y) ∧ Path (m.join p n) R := by
  have hnext : ∀ a, a ≠ p → (m.join p n).next a = m.next a := fun a ha => by
    rw [m.join_next, if_neg ha]
  have hprev : ∀ a, a ≠ n → (m.join p n).prev a = m.prev a := fun a ha => by
    rw [m.join_prev, if_neg ha]
  obtain ⟨hX, hrest⟩ := isChain_split.mp h
  have hRY : Path m (R ++ n :: Y) := hrest.tail
  obtain ⟨-, hY⟩ := isChain_split.mp hRY
  have hR : Path m R := (isChain_append.mp hRY).1
  simp only [nodup_append, nodup_cons, mem_append, mem_cons, not_or] at hd
  obtain ⟨-, ⟨⟨hpR, hpn, hpY⟩, hRnd, ⟨hnY, -⟩, hRY'⟩, hXrest⟩ := hd
  have hXp : p ∉ X := fun hp => hXrest p hp p (.inl rfl) rfl
  have hXn : n ∉ X := fun hn => hXrest n hn n (.inr (.inr (.inl rfl))) rfl
  have hRn : n ∉ R := fun hn => hRY' n hn n (.inl rfl) rfl
  refine ⟨?_, ?_⟩
  · refine isChain_append_cons_cons.mpr ⟨?_, ⟨?_, ?_⟩, ?_⟩
    · refine Path.congr hX (fun a ha => hnext a ?_) fun a ha => hprev a ?_
      · rintro rfl
        rw [dropLast_concat] at ha
        exact hXp ha
      · rintro rfl
        rcases mem_append.mp (mem_of_mem_tail ha) with ha | ha
        · exact hXn ha
        · exact hpn (mem_singleton.mp ha).symm
    · rw [m.join_next, if_pos rfl]
    · rw [m.join_prev, if_pos rfl]
    · refine Path.congr hY (fun a ha => hnext a ?_) fun a ha => hprev a ?_
      · rintro rfl
        rcases mem_cons.mp (dropLast_subset _ ha) with ha | ha
        · exact hpn ha
        · exact hpY ha
      · rintro rfl
        exact hnY ha
  · refine Path.congr hR (fun a ha => hnext a ?_) fun a ha => hprev a ?_
    · rintro rfl
      exact hpR (dropLast_subset _ ha)
    · rintro rfl
      exact hRn (mem_of_mem_tail ha)

theorem Path.attach {U V : List α} (hU : Path m (U ++ [c])) (hV : Path m (d :: V)) (hR : Path m R)
    (hfirst : R.head? = some first) (hlast : R.getLast? = some last)
    (hd : (U ++ c :: (R ++ d :: V)).Nodup) :
    Path (m.graft c first last d) (U ++ c :: (R ++ d :: V)) := by
  have hnext : ∀ a, a ≠ last → a ≠ c → (m.graft c first last d).next a = m.next a :=
    fun a h1 h2 => by rw [m.graft_next, if_neg h2, if_neg h1]
  have hprev : ∀ a, a ≠ first → a ≠ d → (m.graft c first last d).prev a = m.prev a :=
    fun a h1 h2 => by rw [m.graft_prev, if_neg h2, if_neg h1]
  have hfR : first ∈ R := mem_of_mem_head? hfirst
  have hlR : last ∈ R := mem_of_getLast? hlast
  simp only [nodup_append, nodup_cons, mem_append, mem_cons, not_or] at hd
  obtain ⟨-, ⟨⟨hcR, hcd, hcV⟩, hRnd, ⟨hdV, -⟩, hRrest⟩, hUrest⟩ := hd
  have hUc : c ∉ U := fun hc => hUrest c hc c (.inl rfl) rfl
  have hUR : ∀ a ∈ U, a ∉ R := fun a ha hR => hUrest a ha a (.inr (.inl hR)) rfl
  have hUd : d ∉ U := fun hd => hUrest d hd d (.inr (.inr (.inl rfl))) rfl
  have hdR : d ∉ R := fun hd => hRrest d hd d (.inl rfl) rfl
  have hVR : ∀ a ∈ V, a ∉ R := fun a ha hR => hRrest a hR a (.inr ha) rfl
  have hcases : R = first :: R.tail := eq_cons_of_mem_head? hfirst
  have hconcat : R.dropLast ++ [last] = R := dropLast_append_getLast? last hlast
  have hU' : Path (m.graft c first last d) (U ++ [c]) := by
    refine Path.congr hU (fun a ha => ?_) fun a ha => ?_
    · rw [dropLast_concat] at ha
      exact hnext a (fun e => hUR a ha (e ▸ hlR)) fun e => hUc (e ▸ ha)
    · have hmem : a ∈ U ∨ a = c := by
        rcases mem_append.mp (mem_of_mem_tail ha) with ha | ha
        · exact .inl ha
        · exact .inr (mem_singleton.mp ha)
      refine hprev a ?_ ?_
      · rintro rfl
        exact hmem.elim (fun ha => hUR a ha hfR) fun e => hcR (e ▸ hfR)
      · rintro rfl
        exact hmem.elim hUd fun e => hcd e.symm
  have hR' : Path (m.graft c first last d) R := by
    refine Path.congr hR (fun a ha => hnext a ?_ ?_) fun a ha => hprev a ?_ ?_
    · rintro rfl
      rw [← hconcat, nodup_append] at hRnd
      exact hRnd.2.2 a ha a (mem_singleton.mpr rfl) rfl
    · rintro rfl
      exact hcR (dropLast_subset _ ha)
    · rintro rfl
      rw [hcases] at hRnd
      exact (nodup_cons.mp hRnd).1 ha
    · rintro rfl
      exact hdR (mem_of_mem_tail ha)
  have hV' : Path (m.graft c first last d) (d :: V) := by
    refine Path.congr hV (fun a ha => ?_) fun a ha => ?_
    · rcases mem_cons.mp (dropLast_subset _ ha) with rfl | ha
      · exact hnext a (fun e => hdR (e ▸ hlR)) fun e => hcd e.symm
      · exact hnext a (fun e => hVR a ha (e ▸ hlR)) fun e => hcV (e ▸ ha)
    · exact hprev a (fun e => hVR a ha (e ▸ hfR)) fun e => hdV (e ▸ ha)
  have hcf : Joined (m.graft c first last d) c first := by
    have hfd : first ≠ d := fun e => hdR (e ▸ hfR)
    exact ⟨by rw [m.graft_next, if_pos rfl], by rw [m.graft_prev, if_neg hfd, if_pos rfl]⟩
  have hld : Joined (m.graft c first last d) last d := by
    have hlc : last ≠ c := fun e => hcR (e ▸ hlR)
    exact ⟨by rw [m.graft_next, if_neg hlc, if_pos rfl], by rw [m.graft_prev, if_pos rfl]⟩
  have hRV : Path (m.graft c first last d) (R ++ d :: V) := by
    have hsplit : R ++ d :: V = R.dropLast ++ last :: d :: V := by
      conv_lhs => rw [← hconcat]
      rw [append_assoc, singleton_append]
    rw [hsplit]
    refine isChain_append_cons_cons.mpr ⟨?_, hld, hV'⟩
    rw [hconcat]
    exact hR'
  refine isChain_split.mpr ⟨hU', ?_⟩
  rw [hcases, cons_append] at hRV ⊢
  exact .cons_cons hcf hRV

end Path

/-! ## 3. Lists -/

/-- All nodes of a list with its sentinels. -/
def nodes (h : α) (l : List α) (t : α) : List α := h :: (l ++ [t])

/-- **A well-formed list.** -/
structure DList (m : Links α) (h : α) (l : List α) (t : α) : Prop where
  distinct : (nodes h l t).Nodup
  path : Path m (nodes h l t)
  headPrev : m.prev h = none
  tailNext : m.next t = none

namespace DList

variable {m m' : Links α} {h t : α} {l A B R : List α}

theorem congr (hl : DList m h l t) (hs : ∀ a ∈ nodes h l t, SameAt m m' a) : DList m' h l t where
  distinct := hl.distinct
  path := hl.path.congr (fun a ha => (hs a (dropLast_subset _ ha)).1)
    fun a ha => (hs a (mem_of_mem_tail ha)).2
  headPrev := (hs h mem_cons_self).2.trans hl.headPrev
  tailNext := (hs t (by simp [nodes])).1.trans hl.tailNext

theorem nodes_append (h t : α) (A B : List α) : nodes h (A ++ B) t =
    (h :: A).dropLast ++ A.getLastD h :: B.headD t :: (B ++ [t]).tail := by
  have hA : h :: A = (h :: A).dropLast ++ [A.getLastD h] := by
    rw [← getLast_eq_getLastD (cons_ne_nil h A), dropLast_append_getLast]
  have hB : B ++ [t] = B.headD t :: (B ++ [t]).tail := by
    cases B <;> rfl
  unfold nodes
  rw [append_assoc, ← cons_append, hA, hB]
  simp

/-- The same with a range in between. -/
theorem nodes_range (h t : α) (A B : List α) {R : List α} (hR : R ≠ []) :
    nodes h (A ++ (R ++ B)) t =
      (h :: A).dropLast ++ A.getLastD h :: (R ++ B.headD t :: (B ++ [t]).tail) := by
  rw [nodes_append]
  cases R with
  | nil => exact absurd rfl hR
  | cons r R =>
    have hB : B ++ [t] = B.headD t :: (B ++ [t]).tail := by cases B <;> rfl
    rw [← hB]
    simp

theorem headD_mem (B : List α) (t : α) : B.headD t ∈ B ++ [t] := by
  cases B <;> simp

theorem getLastD_mem (h : α) (A : List α) : A.getLastD h ∈ h :: A := by
  rw [← getLast_eq_getLastD (cons_ne_nil h A)]
  exact getLast_mem _

theorem pred_mem (h t : α) (A B : List α) : A.getLastD h ∈ nodes h (A ++ B) t := by
  have hmem := getLastD_mem h A
  simp only [nodes, mem_cons, mem_append] at hmem ⊢
  tauto

theorem succ_mem (h t : α) (A B : List α) : B.headD t ∈ nodes h (A ++ B) t := by
  have hmem := headD_mem B t
  simp only [nodes, mem_cons, mem_append] at hmem ⊢
  tauto

theorem head_ne (hd : (nodes h (A ++ B) t).Nodup) : h ≠ B.headD t := by
  intro e
  have hmem := headD_mem B t
  rw [← e] at hmem
  refine (nodup_cons.mp hd).1 ?_
  rw [append_assoc]
  exact mem_append_right A hmem

theorem tail_ne (hd : (nodes h (A ++ B) t).Nodup) : t ≠ A.getLastD h := by
  intro e
  have hmem := getLastD_mem h A
  rw [← e] at hmem
  unfold nodes at hd
  rw [← cons_append, nodup_append] at hd
  refine hd.2.2 t ?_ t mem_cons_self rfl
  rw [← cons_append]
  exact mem_append_left B hmem

theorem range_apart (hd : (nodes h (A ++ (R ++ B)) t).Nodup) :
    A.getLastD h ∉ R ∧ B.headD t ∉ R := by
  have hR : R ≠ [] ∨ R = [] := (em (R = [])).symm
  rcases hR with hR | rfl
  · rw [nodes_range h t A B hR] at hd
    simp only [nodup_append, nodup_cons, mem_append, mem_cons, not_or] at hd
    obtain ⟨-, ⟨⟨hpred, -⟩, -, -, hsucc⟩, -⟩ := hd
    exact ⟨hpred, fun hmem => hsucc _ hmem _ (.inl rfl) rfl⟩
  · exact ⟨not_mem_nil, not_mem_nil⟩

theorem joined (hl : DList m h (A ++ B) t) : Joined m (A.getLastD h) (B.headD t) := by
  have hp := hl.path
  rw [nodes_append] at hp
  exact (isChain_append_cons_cons.mp hp).2.1

theorem next_head (hl : DList m h l t) : m.next h = some (l.headD t) :=
  (joined (A := []) hl).1

theorem prev_tail (hl : DList m h l t) : m.prev t = some (l.getLastD h) := by
  rw [← append_nil l] at hl
  exact hl.joined.2

theorem prev_elem (hl : DList m h (A ++ x :: B) t) : m.prev x = some (A.getLastD h) :=
  hl.joined.2

theorem next_elem (hl : DList m h (A ++ x :: B) t) : m.next x = some (B.headD t) := by
  rw [append_cons] at hl
  have hj := hl.joined.1
  rwa [getLastD_concat] at hj

section Surgery

variable [DecidableEq α]

theorem detach (hl : DList m h (A ++ (R ++ B)) t) (hR : R ≠ []) :
    DList (m.join (A.getLastD h) (B.headD t)) h (A ++ B) t ∧
      Path (m.join (A.getLastD h) (B.headD t)) R := by
  have hpath := hl.path
  have hdist := hl.distinct
  rw [nodes_range h t A B hR] at hpath hdist
  obtain ⟨hAB, hRpath⟩ := hpath.detach hdist
  rw [← nodes_append] at hAB
  have hdist' : (nodes h (A ++ B) t).Nodup := by
    rw [nodes_append]
    refine hdist.sublist (List.Sublist.append_left ?_ _)
    exact (sublist_append_right R _).cons_cons _
  refine ⟨⟨hdist', hAB, ?_, ?_⟩, hRpath⟩
  · rw [m.join_prev, if_neg (head_ne hdist')]
    exact hl.headPrev
  · rw [m.join_next, if_neg (tail_ne hdist')]
    exact hl.tailNext

theorem attach (hl : DList m h (A ++ B) t) (hR : Path m R) (hfirst : R.head? = some first)
    (hlast : R.getLast? = some last) (hd : (nodes h (A ++ (R ++ B)) t).Nodup) :
    DList (m.graft (A.getLastD h) first last (B.headD t)) h (A ++ (R ++ B)) t := by
  have hnew : nodes h (A ++ (R ++ B)) t =
      (h :: A).dropLast ++ A.getLastD h :: (R ++ B.headD t :: (B ++ [t]).tail) :=
    nodes_range h t A B (by rintro rfl; cases hfirst)
  have hpath := hl.path
  rw [nodes_append] at hpath
  have hdist := hd
  rw [hnew] at hdist
  have hfR : first ∈ R := mem_of_mem_head? hfirst
  have hlR : last ∈ R := mem_of_getLast? hlast
  refine ⟨hd, ?_, ?_, ?_⟩
  · rw [hnew]
    obtain ⟨hU, -, hV⟩ := isChain_append_cons_cons.mp hpath
    exact Path.attach hU hV hR hfirst hlast hdist
  · have hne : h ≠ first := by
      rintro rfl
      exact (nodup_cons.mp hd).1 (by simp [hfR])
    rw [m.graft_prev, if_neg (head_ne hl.distinct), if_neg hne]
    exact hl.headPrev
  · have hne : t ≠ last := by
      rintro rfl
      unfold nodes at hd
      rw [← cons_append, nodup_append] at hd
      exact hd.2.2 t (by simp [hlR]) t mem_cons_self rfl
    rw [m.graft_next, if_neg (tail_ne hl.distinct), if_neg hne]
    exact hl.tailNext

end Surgery

end DList

/-! ## 4. Families -/

/-- **Well-formed lists that have no node in common.** -/
structure Lists (m : Links α) (head tail : ι → α) (q : ι → List α) : Prop where
  list : ∀ i, DList m (head i) (q i) (tail i)
  apart : ∀ i j, i ≠ j → ∀ a ∈ nodes (head i) (q i) (tail i), a ∉ nodes (head j) (q j) (tail j)

namespace Lists

variable {m m' : Links α} {head tail : ι → α} {q : ι → List α} {i : ι} {l A B R : List α}
variable [DecidableEq ι]

theorem update (hq : Lists m head tail q) (hl : DList m' (head i) l (tail i))
    (hsame : ∀ j, j ≠ i → ∀ a ∈ nodes (head j) (q j) (tail j), SameAt m m' a)
    (hnew : ∀ j, j ≠ i → ∀ a ∈ l, a ∉ nodes (head j) (q j) (tail j)) :
    Lists m' head tail (Function.update q i l) := by
  have hkey : ∀ j, j ≠ i → ∀ a ∈ nodes (head i) l (tail i), a ∉ nodes (head j) (q j) (tail j) := by
    intro j hj a ha
    have hcases : a = head i ∨ a ∈ l ∨ a = tail i := by simpa [nodes] using ha
    rcases hcases with rfl | ha | rfl
    · exact hq.apart i j hj.symm _ (by simp [nodes])
    · exact hnew j hj a ha
    · exact hq.apart i j hj.symm _ (by simp [nodes])
  refine ⟨fun j => ?_, fun j k hjk a ha => ?_⟩
  · by_cases hj : j = i
    · subst hj
      rw [Function.update_self]
      exact hl
    · rw [Function.update_of_ne hj]
      exact (hq.list j).congr (hsame j hj)
  · by_cases hj : j = i
    · subst hj
      rw [Function.update_self] at ha
      rw [Function.update_of_ne hjk.symm]
      exact hkey k hjk.symm a ha
    · rw [Function.update_of_ne hj] at ha
      by_cases hk : k = i
      · subst hk
        rw [Function.update_self]
        exact fun h => hkey j hj a h ha
      · rw [Function.update_of_ne hk]
        exact hq.apart j k hjk a ha

variable [DecidableEq α]

theorem nodes_perm (h t : α) (A B R : List α) :
    (nodes h (A ++ (R ++ B)) t).Perm (R ++ nodes h (A ++ B) t) := by
  refine perm_iff_count.mpr fun a => ?_
  simp only [nodes, count_append, count_cons]
  omega

theorem detach (hq : Lists m head tail q) (hi : q i = A ++ (R ++ B)) (hR : R ≠ []) :
    Lists (m.join (A.getLastD (head i)) (B.headD (tail i))) head tail
        (Function.update q i (A ++ B)) ∧
      Path (m.join (A.getLastD (head i)) (B.headD (tail i))) R ∧ R.Nodup ∧
      ∀ j, ∀ a ∈ R, a ∉ nodes (head j) (Function.update q i (A ++ B) j) (tail j) := by
  have hl := hq.list i
  rw [hi] at hl
  obtain ⟨hl', hRpath⟩ := hl.detach hR
  have hdist : (R ++ nodes (head i) (A ++ B) (tail i)).Nodup :=
    (nodes_perm (head i) (tail i) A B R).nodup_iff.mp hl.distinct
  rw [nodup_append] at hdist
  refine ⟨hq.update hl' (fun j hj a ha => ?_) fun j hj a ha => ?_, hRpath, hdist.1,
    fun j a ha hmem => ?_⟩
  · have hout := hq.apart j i hj a ha
    rw [hi] at hout
    have hpred : a ≠ A.getLastD (head i) := by
      rintro rfl
      exact hout (DList.pred_mem _ _ A (R ++ B))
    have hsucc : a ≠ B.headD (tail i) := by
      rintro rfl
      rw [← append_assoc] at hout
      exact hout (DList.succ_mem _ _ (A ++ R) B)
    exact sameAt_join m hpred hsucc
  · refine hq.apart i j hj.symm a ?_
    rw [hi]
    simp only [nodes, mem_cons, mem_append] at ha ⊢
    tauto
  · by_cases hj : j = i
    · subst hj
      rw [Function.update_self] at hmem
      exact hdist.2.2 a ha a hmem rfl
    · rw [Function.update_of_ne hj] at hmem
      refine hq.apart i j (Ne.symm hj) a ?_ hmem
      rw [hi]
      simp [nodes, ha]

theorem attach (hq : Lists m head tail q) (hi : q i = A ++ B) (hR : Path m R) (hd : R.Nodup)
    (hout : ∀ j, ∀ a ∈ R, a ∉ nodes (head j) (q j) (tail j)) (hfirst : R.head? = some first)
    (hlast : R.getLast? = some last) :
    Lists (m.graft (A.getLastD (head i)) first last (B.headD (tail i))) head tail
      (Function.update q i (A ++ (R ++ B))) := by
  have hl := hq.list i
  rw [hi] at hl
  have hfR : first ∈ R := mem_of_mem_head? hfirst
  have hlR : last ∈ R := mem_of_getLast? hlast
  have hdist : (nodes (head i) (A ++ (R ++ B)) (tail i)).Nodup := by
    rw [(nodes_perm (head i) (tail i) A B R).nodup_iff, nodup_append]
    refine ⟨hd, hl.distinct, ?_⟩
    rintro a ha b hb rfl
    have := hout i a ha
    rw [hi] at this
    exact this hb
  refine hq.update (hl.attach hR hfirst hlast hdist) (fun j hj a ha => ?_) fun j hj a ha => ?_
  · have hne : ∀ b ∈ nodes (head i) (A ++ B) (tail i), a ≠ b := by
      rintro b hb rfl
      have := hq.apart j i hj a ha
      rw [hi] at this
      exact this hb
    have hneR : ∀ b ∈ R, a ≠ b := by
      rintro b hb rfl
      exact hout j a hb ha
    have hpred := hne _ (DList.pred_mem (head i) (tail i) A B)
    have hsucc := hne _ (DList.succ_mem (head i) (tail i) A B)
    exact sameAt_graft m hpred (hneR first hfR) (hneR last hlR) hsucc
  · have hcases : a ∈ R ∨ a ∈ A ++ B := by
      simp only [mem_append] at ha ⊢
      tauto
    rcases hcases with ha | ha
    · exact hout j a ha
    · refine hq.apart i j hj.symm a ?_
      rw [hi]
      simp only [nodes, mem_cons, mem_append] at ha ⊢
      tauto

end Lists

end Pintos.Lib
