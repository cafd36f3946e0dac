/-
  Subject:   The lists of lib/kernel/list.c in a memory of bytes: a list element is eight bytes, its
             `prev` pointer and then its `next` pointer, at an address that other data may share.

  * The functions read and write the words of the elements in the order of the source. A failed
    `ASSERT` is `none`; a null pointer is the word 0.
  * `linksOf` is the memory as `Klib/List.lean` sees it. In a set of elements that do not overlap
    (`Spaced`), writing one word changes one link.
-/
import Pintos.Klib.List
import Pintos.Lib.Memory

namespace Pintos

open Lib Function

/-! ## 1. The code -/

/-- A pointer in memory; null is 0. -/
def ptr (v : ℕ) : Option ℕ := if v = 0 then none else some v

/-- **The links of the list elements in a memory.** -/
def linksOf (m : ℕ → UInt8) : Links ℕ where
  next a := ptr (word m (a + 4))
  prev a := ptr (word m a)

/-- A `struct list`: the two sentinels, one after the other. -/
def listAt (list : ℕ) : KList ℕ := ⟨list, list + 8⟩

/-- `list_init`. -/
def memInit (m : ℕ → UInt8) (list : ℕ) : ℕ → UInt8 :=
  let m := setWord m list 0
  let m := setWord m (list + 4) (list + 8)
  let m := setWord m (list + 8) list
  setWord m (list + 12) 0

/-- `list_remove`. -/
def memRemove (m : ℕ → UInt8) (elem : ℕ) : Option (ℕ → UInt8) :=
  if isInterior (linksOf m) elem then
    let m := setWord m (word m elem + 4) (word m (elem + 4))
    some (setWord m (word m (elem + 4)) (word m elem))
  else none

/-- `list_insert`. -/
def memInsert (m : ℕ → UInt8) (before elem : ℕ) : Option (ℕ → UInt8) :=
  if isInterior (linksOf m) before || isTail (linksOf m) before then
    let m := setWord m elem (word m before)
    let m := setWord m (elem + 4) before
    let m := setWord m (word m before + 4) elem
    some (setWord m before elem)
  else none

/-- `list_begin`. -/
def memBegin (m : ℕ → UInt8) (list : ℕ) : ℕ := word m ((listAt list).head + 4)

/-- `list_empty`. -/
def memEmpty (m : ℕ → UInt8) (list : ℕ) : Bool := memBegin m list == (listAt list).tail

/-- `list_push_back`. -/
def memPushBack (m : ℕ → UInt8) (list elem : ℕ) : Option (ℕ → UInt8) :=
  memInsert m (listAt list).tail elem

/-- `list_push_front`. -/
def memPushFront (m : ℕ → UInt8) (list elem : ℕ) : Option (ℕ → UInt8) :=
  memInsert m (memBegin m list) elem

/-- `list_pop_front`, with `list_front`'s assertion. -/
def memPopFront (m : ℕ → UInt8) (list : ℕ) : Option ((ℕ → UInt8) × ℕ) :=
  if memEmpty m list then none
  else
    let front := memBegin m list
    (memRemove m front).map fun m => (m, front)

/-! ## 2. One word is one link -/

/-- **List elements that do not overlap.** -/
structure Spaced (P : ℕ → Prop) : Prop where
  pos : ∀ a, P a → 0 < a
  fits : ∀ a, P a → a + 8 ≤ 2 ^ 32
  apart : ∀ a b, P a → P b → a ≠ b → a + 8 ≤ b ∨ b + 8 ≤ a

section Words

variable {m : ℕ → UInt8} {L : Links ℕ} {P : ℕ → Prop} {a v : ℕ}

theorem ptr_pos (h : 0 < v) : ptr v = some v := if_neg (by omega)

variable {p x : ℕ}

theorem ptr_some (h : ptr v = some x) : v = x ∧ 0 < x := by
  unfold ptr at h
  split at h
  · cases h
  · cases h
    exact ⟨rfl, by omega⟩

theorem word_next (h : (linksOf m).next a = some x) : word m (a + 4) = x := (ptr_some h).1

theorem word_prev (h : (linksOf m).prev a = some x) : word m a = x := (ptr_some h).1

theorem setWord_next (hP : Spaced P) (hs : ∀ b, P b → SameAt L (linksOf m) b) (ha : P a)
    (hv : v < 2 ^ 32) :
    ∀ b, P b → SameAt (L.setNext a (ptr v)) (linksOf (setWord m (a + 4) v)) b := by
  intro b hb
  have hprev : word (setWord m (a + 4) v) b = word m b := by
    refine word_setWord_apart ?_
    by_cases hba : b = a
    · omega
    · rcases hP.apart b a hb ha hba with h | h <;> omega
  refine ⟨?_, ?_⟩
  · rw [Links.setNext_next]
    show ptr (word (setWord m (a + 4) v) (b + 4)) = _
    split
    · rename_i hba
      subst hba
      rw [word_setWord hv]
    · rename_i hba
      rw [word_setWord_apart]
      · exact (hs b hb).1
      · rcases hP.apart b a hb ha hba with h | h <;> omega
  · show ptr (word (setWord m (a + 4) v) b) = _
    rw [hprev, Links.setNext_prev]
    exact (hs b hb).2

theorem setWord_prev (hP : Spaced P) (hs : ∀ b, P b → SameAt L (linksOf m) b) (ha : P a)
    (hv : v < 2 ^ 32) : ∀ b, P b → SameAt (L.setPrev a (ptr v)) (linksOf (setWord m a v)) b := by
  intro b hb
  have hnext : word (setWord m a v) (b + 4) = word m (b + 4) := by
    refine word_setWord_apart ?_
    by_cases hba : b = a
    · omega
    · rcases hP.apart b a hb ha hba with h | h <;> omega
  refine ⟨?_, ?_⟩
  · show ptr (word (setWord m a v) (b + 4)) = _
    rw [hnext, Links.setPrev_next]
    exact (hs b hb).1
  · rw [Links.setPrev_prev]
    show ptr (word (setWord m a v) b) = _
    split
    · rename_i hba
      subst hba
      rw [word_setWord hv]
    · rename_i hba
      rw [word_setWord_apart]
      · exact (hs b hb).2
      · rcases hP.apart b a hb ha hba with h | h <;> omega

theorem setWord_join (hP : Spaced P) (hs : ∀ b, P b → SameAt L (linksOf m) b) {n : ℕ} (hp : P p)
    (hn : P n) :
    ∀ b, P b → SameAt (L.join p n) (linksOf (setWord (setWord m (p + 4) n) n p)) b := by
  have hnf := hP.fits n hn
  have hpf := hP.fits p hp
  have h1 := setWord_next hP hs hp (v := n) (by omega)
  have h2 := setWord_prev hP h1 hn (v := p) (by omega)
  rw [ptr_pos (hP.pos n hn), ptr_pos (hP.pos p hp)] at h2
  exact h2

end Words

/-! ## 3. The functions on a family of lists -/

section Family

variable {ι : Type*} {m : ℕ → UInt8} {P : ℕ → Prop} {list : ι → ℕ} {q : ι → List ℕ} {i : ι} {x : ℕ}
variable {A B : List ℕ}

/-- **A family of lists in memory**: the list elements are among the places `P`. -/
structure MemLists (m : ℕ → UInt8) (P : ℕ → Prop) (list : ι → ℕ) (q : ι → List ℕ) : Prop where
  spaced : Spaced P
  lists : Lists (linksOf m) (fun i => (listAt (list i)).head) (fun i => (listAt (list i)).tail) q
  place : ∀ i, ∀ a ∈ nodes (listAt (list i)).head (q i) (listAt (list i)).tail, P a

/-- The bytes that no list of the family uses are the same. -/
def Untouched (list : ι → ℕ) (q : ι → List ℕ) (m m' : ℕ → UInt8) : Prop :=
  ∀ y, (∀ i, ∀ a ∈ nodes (listAt (list i)).head (q i) (listAt (list i)).tail, y < a ∨ a + 8 ≤ y) →
    m' y = m y

namespace MemLists

variable (h : MemLists m P list q)

include h

/-- **Frame**: the lists stand as long as nobody writes into their elements. -/
theorem congr {n : ℕ → UInt8} (hs : ∀ i, ∀ a ∈ nodes (listAt (list i)).head (q i)
      (listAt (list i)).tail, ∀ y, a ≤ y → y < a + 8 → n y = m y) : MemLists n P list q where
  spaced := h.spaced
  lists := by
    refine ⟨fun i => (h.lists.list i).congr fun a ha => ?_, h.lists.apart⟩
    have hnext : word n (a + 4) = word m (a + 4) :=
      word_congr fun y h1 h2 => hs i a ha y (by omega) (by omega)
    have hprev : word n a = word m a := word_congr fun y h1 h2 => hs i a ha y (by omega) (by omega)
    exact ⟨congrArg ptr hnext, congrArg ptr hprev⟩
  place := h.place

theorem mono {Q : ℕ → Prop} (hQ : Spaced Q) (hPQ : ∀ a, P a → Q a) : MemLists m Q list q where
  spaced := hQ
  lists := h.lists
  place i a ha := hPQ a (h.place i a ha)

theorem begin_eq (i : ι) : memBegin m (list i) = (q i).headD (listAt (list i)).tail :=
  word_next (h.lists.list i).next_head

theorem empty_iff (i : ι) : memEmpty m (list i) = true ↔ q i = [] := by
  unfold memEmpty
  rw [h.begin_eq i, beq_iff_eq]
  cases hq : q i with
  | nil => exact ⟨fun _ => rfl, fun _ => rfl⟩
  | cons a l =>
    refine ⟨fun he => ?_, fun he => nomatch he⟩
    have hd := (h.lists.list i).distinct
    rw [hq] at hd
    have hat : a = (listAt (list i)).tail := he
    rw [← hat] at hd
    exact absurd hd (by simp [nodes])

variable [DecidableEq ι]

theorem remove (hi : q i = A ++ x :: B) :
    ∃ m', memRemove m x = some m' ∧ MemLists m' P list (update q i (A ++ B)) ∧
      Untouched list q m m' := by
  have hl := h.lists.list i
  have hplace := h.place i
  rw [hi] at hl hplace
  obtain ⟨L, hL, hLq, -⟩ := listRemove_spec h.lists hi
  rw [listRemove_eq hl] at hL
  obtain rfl := congrArg Prod.fst (Option.some.inj hL)
  -- the neighbours of the element
  have hpmem := DList.pred_mem (listAt (list i)).head (listAt (list i)).tail A (x :: B)
  have hnmem := DList.succ_mem (listAt (list i)).head (listAt (list i)).tail (A ++ [x]) B
  rw [List.append_assoc, List.singleton_append] at hnmem
  generalize hp : A.getLastD (listAt (list i)).head = p at *
  generalize hn : B.headD (listAt (list i)).tail = n at *
  have hprev : word m x = p := by
    rw [← hp]
    exact word_prev hl.prev_elem
  have hnext : word m (x + 4) = n := by
    rw [← hn]
    exact word_next hl.next_elem
  have hxP : P x := hplace x (by simp [nodes])
  have hpx : p ≠ x := by
    intro e
    have hmem := DList.getLastD_mem (listAt (list i)).head A
    have hd : ((listAt (list i)).head :: A ++ x :: (B ++ [(listAt (list i)).tail])).Nodup := by
      simpa [nodes] using hl.distinct
    rw [hp, e] at hmem
    exact (List.nodup_append.mp hd).2.2 x hmem x List.mem_cons_self rfl
  -- the words of the element itself are not changed by the first write
  have hkeep : ∀ b, b = x ∨ b = x + 4 → word (setWord m (p + 4) n) b = word m b := by
    intro b hb
    refine word_setWord_apart ?_
    rcases h.spaced.apart p x (hplace p hpmem) hxP hpx with h' | h' <;> omega
  refine ⟨setWord (setWord m (p + 4) n) n p, ?_, ?_, ?_⟩
  · unfold memRemove
    rw [if_pos (isInterior_elem hl), hprev, hnext]
    simp only [hkeep x (.inl rfl), hkeep (x + 4) (.inr rfl), hprev, hnext]
  · have hview := setWord_join h.spaced (fun b _ => ⟨rfl, rfl⟩ : ∀ b, P b →
      SameAt (linksOf m) (linksOf m) b) (hplace p hpmem) (hplace n hnmem)
    have hsub : ∀ j, ∀ a ∈ nodes (listAt (list j)).head (update q i (A ++ B) j)
        (listAt (list j)).tail, P a := by
      intro j a ha
      by_cases hj : j = i
      · subst hj
        rw [update_self] at ha
        refine hplace a ?_
        simp only [nodes, List.mem_cons, List.mem_append] at ha ⊢
        tauto
      · rw [update_of_ne hj] at ha
        exact h.place j a ha
    exact ⟨h.spaced, ⟨fun j => (hLq.list j).congr fun a ha => hview a (hsub j a ha), hLq.apart⟩,
      hsub⟩
  · intro y hy
    have hyp := hy i p (by rw [hi]; exact hpmem)
    have hyn := hy i n (by rw [hi]; exact hnmem)
    rw [setWord_apart (by omega), setWord_apart (by omega)]

/-- **`list_insert`** in a family of lists, of an element that is in none of them. -/
theorem insert (hi : q i = A ++ B) (hxP : P x)
    (hx : ∀ j, x ∉ nodes (listAt (list j)).head (q j) (listAt (list j)).tail) :
    ∃ m', memInsert m (B.headD (listAt (list i)).tail) x = some m' ∧
      MemLists m' P list (update q i (A ++ x :: B)) ∧
      ∀ y, (y < x ∨ x + 8 ≤ y) → (∀ i, ∀ a ∈ nodes (listAt (list i)).head (q i)
        (listAt (list i)).tail, y < a ∨ a + 8 ≤ y) → m' y = m y := by
  have hl := h.lists.list i
  have hplace := h.place i
  have hxi := hx i
  rw [hi] at hl hplace hxi
  obtain ⟨L, hL, hLq⟩ := listInsert_spec h.lists hi hx
  rw [listInsert_eq hl hxi] at hL
  obtain rfl := Option.some.inj hL
  have hpmem := DList.pred_mem (listAt (list i)).head (listAt (list i)).tail A B
  have hnmem := DList.succ_mem (listAt (list i)).head (listAt (list i)).tail A B
  have hinterior := interior_or_tail hl
  have hjoined := hl.joined
  generalize hp : A.getLastD (listAt (list i)).head = p at *
  generalize hn : B.headD (listAt (list i)).tail = n at *
  have hprev : word m n = p := word_prev hjoined.2
  have hpP := hplace p hpmem
  have hnP := hplace n hnmem
  have hnx : n ≠ x := fun e => hxi (e ▸ hnmem)
  have hfits := h.spaced.fits
  have hkeep : word (setWord (setWord m x p) (x + 4) n) n = p := by
    rw [word_setWord_apart, word_setWord_apart, hprev]
    · rcases h.spaced.apart n x hnP hxP hnx with h' | h' <;> omega
    · rcases h.spaced.apart n x hnP hxP hnx with h' | h' <;> omega
  refine ⟨setWord (setWord (setWord (setWord m x p) (x + 4) n) (p + 4) x) n x, ?_, ?_, ?_⟩
  · unfold memInsert
    rw [if_pos hinterior, hprev]
    simp only [hkeep]
  · have h1 := setWord_prev h.spaced (fun b _ => ⟨rfl, rfl⟩ : ∀ b, P b →
      SameAt (linksOf m) (linksOf m) b) hxP (v := p) (by have := hfits p hpP; omega)
    have h2 := setWord_next h.spaced h1 hxP (v := n) (by have := hfits n hnP; omega)
    have h3 := setWord_next h.spaced h2 hpP (v := x) (by have := hfits x hxP; omega)
    have h4 := setWord_prev h.spaced h3 hnP (v := x) (by have := hfits x hxP; omega)
    rw [ptr_pos (h.spaced.pos p hpP), ptr_pos (h.spaced.pos n hnP), ptr_pos (h.spaced.pos x hxP)]
      at h4
    have hview : ∀ b, P b → SameAt ((linksOf m).graft p x x n)
        (linksOf (setWord (setWord (setWord (setWord m x p) (x + 4) n) (p + 4) x) n x)) b := by
      intro b hb
      obtain ⟨hnext, hprev'⟩ := h4 b hb
      refine ⟨hnext.trans ?_, hprev'.trans ?_⟩
      · rw [Links.graft_next]
        simp only [Links.setPrev_next, Links.setNext_next]
      · rw [Links.graft_prev]
        simp only [Links.setNext_prev, Links.setPrev_prev]
    have hsub : ∀ j, ∀ a ∈ nodes (listAt (list j)).head (update q i (A ++ x :: B) j)
        (listAt (list j)).tail, P a := by
      intro j a ha
      by_cases hj : j = i
      · subst hj
        rw [update_self] at ha
        by_cases hax : a = x
        · rw [hax]
          exact hxP
        · refine hplace a ?_
          simp only [nodes, List.mem_cons, List.mem_append] at ha ⊢
          tauto
      · rw [update_of_ne hj] at ha
        exact h.place j a ha
    exact ⟨h.spaced, ⟨fun j => (hLq.list j).congr fun a ha => hview a (hsub j a ha), hLq.apart⟩,
      hsub⟩
  · intro y hyx hy
    have hyp := hy i p (by rw [hi]; exact hpmem)
    have hyn := hy i n (by rw [hi]; exact hnmem)
    rw [setWord_apart (by omega), setWord_apart (by omega), setWord_apart (by omega),
      setWord_apart (by omega)]

end MemLists

end Family

end Pintos
