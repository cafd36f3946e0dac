/-
  Subject:   The hash table of lib/kernel/hash.c, and that it is a set.

  * An element stands for its address; the functions `hash` and `less` of the table come with what
    they have to satisfy (`HashFns`). Elements are distinct objects in memory, so their number and
    the number of buckets are far from the end of a word.
  * A bucket is the list of its elements. `rehash` moves every element to the bucket of its hash
    under the new count, in front of those that are there already; its `malloc` may be refused
    each time.
  * **`hash_refines_set`**: every sequence of calls.
-/
import Pintos.Lib.Run
import Pintos.Lib.MultiQueue
import Mathlib.Data.Nat.Bitwise

namespace Pintos

open Lib Function List

/-! ## 1. The code -/

/-- `hash` and `less` of a table: `less` is a strict weak order, and elements that it does not tell
    apart have the same hash. -/
structure HashFns (α : Type*) where
  hash : α → UInt32
  less : α → α → Bool
  irrefl : ∀ a, less a a = false
  trans : ∀ a b c, less a b = true → less b c = true → less a c = true
  incomp : ∀ a b c, less a b = false → less b a = false → less b c = false → less c b = false →
    less a c = false ∧ less c a = false
  hash_eq : ∀ a b, less a b = false → less b a = false → hash a = hash b

structure HashTable (α : Type*) where
  elemCnt : ℕ
  bucketCnt : ℕ
  buckets : ℕ → List α

variable {α : Type*}

namespace HashFns

variable (f : HashFns α)

/-- The test of `find_elem`. -/
def same (a b : α) : Bool := !f.less a b && !f.less b a

/-- The index that `find_bucket` computes. -/
def bucketIdx (bucketCnt : ℕ) (e : α) : ℕ := (f.hash e).toNat &&& (bucketCnt - 1)

end HashFns

/-- `turn_off_least_1bit`. -/
def turnOffLeast1bit (x : ℕ) : ℕ := x &&& (x - 1)

/-- `is_power_of_2`. -/
def isPowerOf2 (x : ℕ) : Bool := x != 0 && turnOffLeast1bit x == 0

/-- The loop `while (!is_power_of_2 (x))` of `rehash`. -/
def roundDown : (fuel x : ℕ) → ℕ
  | 0, x => x
  | fuel + 1, x => if isPowerOf2 x then x else roundDown fuel (turnOffLeast1bit x)

/-- `new_bucket_cnt` for a number of elements. -/
def newBucketCnt (elemCnt : ℕ) : ℕ :=
  let best := elemCnt / 2
  let atLeast := if best < 4 then 4 else best
  roundDown atLeast atLeast

namespace HashTable

variable (f : HashFns α) (h : HashTable α)

/-- `list_init` of the first `n` buckets. -/
def initBuckets (b : ℕ → List α) : ℕ → ℕ → List α
  | 0 => b
  | n + 1 => update (initBuckets b n) n []

/-- The elements, bucket by bucket. -/
def elems : List α := flat h.buckets h.bucketCnt

/-- `hash_clear`, and the elements that are passed to `destructor` if there is one. -/
def hashClear (destructor : Bool) : HashTable α × List α :=
  (⟨0, h.bucketCnt, initBuckets h.buckets h.bucketCnt⟩, if destructor then h.elems else [])

/-- `hash_init` on memory with anything in it. -/
def hashInit (junk : ℕ → List α) (granted : Bool) : Option (HashTable α) :=
  if granted then some (hashClear ⟨0, 4, junk⟩ false).1 else none

def findElem (bucket : ℕ) (e : α) : Option α := (h.buckets bucket).find? fun hi => f.same hi e

def insertElem (bucket : ℕ) (e : α) : HashTable α :=
  { h with
    elemCnt := h.elemCnt + 1
    buckets := update h.buckets bucket (e :: h.buckets bucket) }

def removeElem [DecidableEq α] (e : α) : HashTable α :=
  { h with elemCnt := h.elemCnt - 1, buckets := remove h.buckets e }

/-- The inner loop of `rehash`: the elements of one old bucket. -/
def moveBucket (cnt : ℕ) (new : ℕ → List α) : List α → ℕ → List α
  | [] => new
  | e :: es =>
    moveBucket cnt (update new (f.bucketIdx cnt e) (e :: new (f.bucketIdx cnt e))) es

/-- The outer loop, over the first `n` old buckets. -/
def moveBuckets (cnt : ℕ) (old new : ℕ → List α) : ℕ → ℕ → List α
  | 0 => new
  | n + 1 => moveBucket f cnt (moveBuckets cnt old new n) (old n)

def rehash (granted : Bool) : HashTable α :=
  let cnt := newBucketCnt h.elemCnt
  if cnt = h.bucketCnt then h
  else if granted then
    { h with
      bucketCnt := cnt
      buckets := moveBuckets f cnt h.buckets (fun _ => []) h.bucketCnt }
  else h

def hashInsert (new : α) (granted : Bool) : Option α × HashTable α :=
  let bucket := f.bucketIdx h.bucketCnt new
  let old := h.findElem f bucket new
  let h₁ := if old.isNone then h.insertElem bucket new else h
  (old, h₁.rehash f granted)

def hashReplace [DecidableEq α] (new : α) (granted : Bool) : Option α × HashTable α :=
  let bucket := f.bucketIdx h.bucketCnt new
  let old := h.findElem f bucket new
  let h₁ := match old with
    | some o => h.removeElem o
    | none => h
  (old, (h₁.insertElem bucket new).rehash f granted)

def hashFind (e : α) : Option α := h.findElem f (f.bucketIdx h.bucketCnt e) e

def hashDelete [DecidableEq α] (e : α) (granted : Bool) : Option α × HashTable α :=
  match h.findElem f (f.bucketIdx h.bucketCnt e) e with
  | some found => (some found, (h.removeElem found).rehash f granted)
  | none => (none, h)

end HashTable

/-! ## 2. Iteration -/

/-- `struct hash_iterator`: the bucket, and the elements of it that lie behind the current one. -/
structure HashIter (α : Type*) where
  bucket : ℕ
  rest : List α

namespace HashTable

variable (h : HashTable α)

def hashFirst : HashIter α := ⟨0, h.buckets 0⟩

/-- `hash_next`: the loop leaves a bucket at its end and stops behind the last bucket. -/
def nextFrom : (fuel : ℕ) → HashIter α → Option α × HashIter α
  | 0, i => (none, i)
  | fuel + 1, i =>
    match i.rest with
    | e :: rest => (some e, ⟨i.bucket, rest⟩)
    | [] =>
      if i.bucket + 1 ≥ h.bucketCnt then (none, ⟨i.bucket + 1, []⟩)
      else nextFrom fuel ⟨i.bucket + 1, h.buckets (i.bucket + 1)⟩

def hashNext (i : HashIter α) : Option α × HashIter α := h.nextFrom (h.bucketCnt - i.bucket) i

/-- The results of `n` calls of `hash_next`. -/
def hashNexts : ℕ → HashIter α → List (Option α)
  | 0, _ => []
  | n + 1, i => (h.hashNext i).1 :: hashNexts n (h.hashNext i).2

end HashTable

/-! ## 3. Sequences of calls, and what they are on a set -/

inductive HashOp (α : Type*) where
  | insert (e : α)
  | replace (e : α)
  | delete (e : α)
  | find (e : α)
  | clear (destructor : Bool)

/-- One call: what it returns, and the table afterwards. `granted` is the outcome of the `malloc` in
    `rehash`. -/
def hashCall [DecidableEq α] (f : HashFns α) (h : HashTable α) (granted : Bool) :
    HashOp α → Option α × HashTable α
  | .insert e => h.hashInsert f e granted
  | .replace e => h.hashReplace f e granted
  | .delete e => h.hashDelete f e granted
  | .find e => (h.hashFind f e, h)
  | .clear destructor => (none, (h.hashClear destructor).1)

def hashStep [DecidableEq α] (f : HashFns α) (h : HashTable α) (c : HashOp α × Bool) :
    Option (HashTable α) :=
  some (hashCall f h c.2 c.1).2

/-- The set that a table stands for. -/
def HashTable.set (h : HashTable α) : Set α := { e | e ∈ h.elems }

/-- `r` is the element of the set that is the same as `e`, or null if there is none. -/
def Found (f : HashFns α) (S : Set α) (e : α) (r : Option α) : Prop :=
  match r with
  | some x => x ∈ S ∧ f.same x e = true
  | none => ∀ x ∈ S, f.same x e = false

/-- **What a call returns**, on sets. -/
def Returns (f : HashFns α) (S : Set α) : HashOp α → Option α → Prop
  | .insert e, r | .replace e, r | .delete e, r | .find e, r => Found f S e r
  | .clear _, r => r = none

/-- **What a call does**, on sets, where it returns `r`. -/
def setAfter (S : Set α) : HashOp α → Option α → Set α
  | .insert e, none | .replace e, none => insert e S
  | .insert _, some _ => S
  | .replace e, some x => insert e (S \ {x})
  | .delete _, none => S
  | .delete _, some x => S \ {x}
  | .find _, _ => S
  | .clear _, _ => ∅

/-- **The invariant.** -/
structure HashInv (f : HashFns α) (h : HashTable α) : Prop where
  power : ∃ k, h.bucketCnt = 2 ^ k
  four : 4 ≤ h.bucketCnt
  placed : ∀ i < h.bucketCnt, ∀ e ∈ h.buckets i, f.bucketIdx h.bucketCnt e = i
  distinct : h.elems.Pairwise fun a b => f.same a b = false
  count : h.elemCnt = h.elems.length

/-! ## 4. The functions of the table -/

namespace HashFns

variable {f : HashFns α} {a b c : α} {n : ℕ}

theorem same_iff : f.same a b = true ↔ f.less a b = false ∧ f.less b a = false := by
  simp [same]

theorem same_refl (a : α) : f.same a a = true := same_iff.mpr ⟨f.irrefl a, f.irrefl a⟩

theorem same_comm : f.same a b = f.same b a := Bool.and_comm ..

theorem same_trans (hab : f.same a b = true) (hbc : f.same b c = true) : f.same a c = true := by
  obtain ⟨h1, h2⟩ := same_iff.mp hab
  obtain ⟨h3, h4⟩ := same_iff.mp hbc
  exact same_iff.mpr (f.incomp a b c h1 h2 h3 h4)

theorem bucketIdx_eq (h : f.same a b = true) : f.bucketIdx n a = f.bucketIdx n b := by
  obtain ⟨h1, h2⟩ := same_iff.mp h
  unfold bucketIdx
  rw [f.hash_eq a b h1 h2]

theorem bucketIdx_lt (hn : 0 < n) (a : α) : f.bucketIdx n a < n := by
  have hle : f.bucketIdx n a ≤ n - 1 := Nat.and_le_right
  omega

end HashFns

/-! ## 5. The number of buckets -/

variable {k x : ℕ}

/-- The highest bit survives, unless the number is a power of two. -/
theorem le_turnOffLeast1bit (hlow : 2 ^ k < x) (hhigh : x < 2 ^ (k + 1)) :
    2 ^ k ≤ turnOffLeast1bit x := by
  have hx : x.testBit k = true :=
    Nat.testBit_of_two_pow_le_and_two_pow_add_one_gt (Nat.le_of_lt hlow) hhigh
  have hpred : (x - 1).testBit k = true :=
    Nat.testBit_of_two_pow_le_and_two_pow_add_one_gt (by omega) (by omega)
  apply Nat.ge_two_pow_of_testBit (i := k)
  rw [turnOffLeast1bit, Nat.testBit_and, hx, hpred]
  rfl

theorem isPowerOf2_iff (hlow : 2 ^ k ≤ x) (hhigh : x < 2 ^ (k + 1)) :
    isPowerOf2 x = true ↔ x = 2 ^ k := by
  constructor
  · intro h
    by_contra hne
    have hle := le_turnOffLeast1bit (by omega) hhigh
    simp only [isPowerOf2, Bool.and_eq_true, bne_iff_ne, beq_iff_eq] at h
    omega
  · rintro rfl
    have hand : turnOffLeast1bit (2 ^ k) = 0 := by
      unfold turnOffLeast1bit
      rw [Nat.and_two_pow_sub_one_eq_mod, Nat.mod_self]
    simp [isPowerOf2, hand]

/-- **The loop ends at the highest power of two.** -/
theorem roundDown_eq : ∀ {fuel x : ℕ}, 2 ^ k ≤ x → x < 2 ^ (k + 1) → x ≤ fuel →
    roundDown fuel x = 2 ^ k
  | 0, x, hlow, _, hf => by
    omega
  | fuel + 1, x, hlow, hhigh, hf => by
    have hiff := isPowerOf2_iff hlow hhigh
    unfold roundDown
    split
    · rename_i hp
      exact hiff.mp hp
    · rename_i hp
      have hne : x ≠ 2 ^ k := fun e => hp (hiff.mpr e)
      have hle : turnOffLeast1bit x ≤ x - 1 := Nat.and_le_right
      exact roundDown_eq (le_turnOffLeast1bit (by omega) hhigh) (by omega) (by omega)

theorem newBucketCnt_spec (n : ℕ) : (∃ k, newBucketCnt n = 2 ^ k) ∧ 4 ≤ newBucketCnt n := by
  unfold newBucketCnt
  obtain ⟨x, hx, hge⟩ : ∃ x, x = (if n / 2 < 4 then 4 else n / 2) ∧ 4 ≤ x :=
    ⟨_, rfl, by split <;> omega⟩
  simp only
  rw [← hx]
  have hlow : 2 ^ x.log2 ≤ x := Nat.log2_self_le (by omega)
  have heq : roundDown x x = 2 ^ x.log2 := roundDown_eq hlow Nat.lt_log2_self (Nat.le_refl x)
  have htwo : 2 ≤ x.log2 := (Nat.le_log2 (by omega)).mpr hge
  rw [heq]
  exact ⟨⟨_, rfl⟩, Nat.pow_le_pow_right (show 0 < 2 by omega) htwo⟩

/-! ## 6. The calls keep the invariant -/

namespace HashInv

open HashTable

variable {f : HashFns α} {h : HashTable α} {e : α}

theorem pos (hi : HashInv f h) : 0 < h.bucketCnt := Nat.lt_of_lt_of_le (by omega) hi.four

theorem mem_bucket (hi : HashInv f h) (he : e ∈ h.elems) :
    e ∈ h.buckets (f.bucketIdx h.bucketCnt e) := by
  obtain ⟨i, hlt, hm⟩ := mem_flat.mp he
  rw [hi.placed i hlt e hm]
  exact hm

theorem found (hi : HashInv f h) (e : α) :
    Found f h.set e (h.findElem f (f.bucketIdx h.bucketCnt e) e) := by
  unfold findElem
  cases hf : (h.buckets (f.bucketIdx h.bucketCnt e)).find? fun hi => f.same hi e with
  | some x =>
    have hm := mem_of_find?_eq_some hf
    have hsame := List.find?_some (p := fun hi => f.same hi e) hf
    exact ⟨mem_flat.mpr ⟨_, HashFns.bucketIdx_lt hi.pos e, hm⟩, hsame⟩
  | none =>
    intro x hx
    by_contra hsame
    have hsame : f.same x e = true := Bool.not_eq_false _ ▸ hsame
    have hm := hi.mem_bucket hx
    rw [HashFns.bucketIdx_eq hsame] at hm
    exact List.find?_eq_none.mp hf x hm hsame

/-- The elements change, up to order, to a list without two that are the same. -/
theorem of_perm {h' : HashTable α} {es : List α} (hperm : h'.elems.Perm es)
    (hd : es.Pairwise fun a b => f.same a b = false) (hn : h'.elemCnt = es.length)
    (hp : ∃ k, h'.bucketCnt = 2 ^ k) (hfour : 4 ≤ h'.bucketCnt)
    (hplaced : ∀ i < h'.bucketCnt, ∀ e ∈ h'.buckets i, f.bucketIdx h'.bucketCnt e = i) :
    HashInv f h' where
  power := hp
  four := hfour
  placed := hplaced
  distinct := hd.perm hperm.symm fun hab => HashFns.same_comm.trans hab
  count := hn.trans hperm.length_eq.symm

theorem insertElem (hi : HashInv f h) (hnew : ∀ x ∈ h.elems, f.same x e = false) :
    HashInv f (h.insertElem (f.bucketIdx h.bucketCnt e) e) ∧
      (h.insertElem (f.bucketIdx h.bucketCnt e) e).elems.Perm (e :: h.elems) := by
  have hperm : (h.insertElem (f.bucketIdx h.bucketCnt e) e).elems.Perm (e :: h.elems) :=
    flat_update_cons (HashFns.bucketIdx_lt hi.pos e)
  refine ⟨of_perm hperm (pairwise_cons.mpr ⟨fun x hx => ?_, hi.distinct⟩) ?_ hi.power hi.four
    ?_, hperm⟩
  · rw [HashFns.same_comm]
    exact hnew x hx
  · show h.elemCnt + 1 = h.elems.length + 1
    rw [hi.count]
  · intro i hlt x hx
    simp only [HashTable.insertElem] at hx hlt ⊢
    by_cases hidx : i = f.bucketIdx h.bucketCnt e
    · subst hidx
      rw [update_self] at hx
      rcases mem_cons.mp hx with rfl | hx
      · rfl
      · exact hi.placed _ hlt x hx
    · rw [update_of_ne hidx] at hx
      exact hi.placed i hlt x hx

theorem removeElem [DecidableEq α] (hi : HashInv f h) (he : e ∈ h.elems) :
    HashInv f (h.removeElem e) ∧ (h.removeElem e).set = h.set \ {e} ∧
      ∀ x ∈ (h.removeElem e).elems, f.same e x = false := by
  have hmem := hi.mem_bucket he
  have hsame : (h.removeElem e).elems = flat (update h.buckets
      (f.bucketIdx h.bucketCnt e) ((h.buckets (f.bucketIdx h.bucketCnt e)).erase e))
      h.bucketCnt := by
    refine flat_congr fun i hlt => ?_
    by_cases hidx : i = f.bucketIdx h.bucketCnt e
    · subst hidx
      rw [update_self]
      rfl
    · rw [update_of_ne hidx]
      exact erase_of_not_mem fun hm => hidx (hi.placed i hlt e hm).symm
  have hperm : h.elems.Perm (e :: (h.removeElem e).elems) := by
    rw [hsame]
    exact flat_perm_cons (HashFns.bucketIdx_lt hi.pos e) (perm_cons_erase hmem)
  have hpair := hi.distinct.perm hperm fun hab => HashFns.same_comm.trans hab
  obtain ⟨hother, hrest⟩ := pairwise_cons.mp hpair
  refine ⟨of_perm (List.Perm.refl _) hrest ?_ hi.power hi.four ?_, Set.ext fun x => ?_, hother⟩
  · show h.elemCnt - 1 = _
    rw [hi.count, hperm.length_eq, length_cons, Nat.add_sub_cancel]
  · intro i hlt x hx
    exact hi.placed i hlt x (mem_of_mem_erase hx)
  · constructor
    · intro hx
      refine ⟨hperm.mem_iff.mpr (mem_cons_of_mem _ hx), fun heq => ?_⟩
      have hno := hother x hx
      rw [Set.mem_singleton_iff.mp heq, HashFns.same_refl] at hno
      cases hno
    · rintro ⟨hx, hne⟩
      exact (mem_cons.mp (hperm.mem_iff.mp hx)).resolve_left hne

end HashInv

namespace HashTable

variable {f : HashFns α} {cnt : ℕ}

theorem moveBucket_spec (hpos : 0 < cnt) : ∀ (es : List α) (new : ℕ → List α),
    (∀ i < cnt, ∀ e ∈ new i, f.bucketIdx cnt e = i) →
    (flat (moveBucket f cnt new es) cnt).Perm (es ++ flat new cnt) ∧
      ∀ i < cnt, ∀ e ∈ moveBucket f cnt new es i, f.bucketIdx cnt e = i
  | [], _, hp => ⟨List.Perm.refl _, hp⟩
  | e :: es, new, hp => by
    have hlt : f.bucketIdx cnt e < cnt := HashFns.bucketIdx_lt hpos e
    obtain ⟨hperm, hplaced⟩ := moveBucket_spec hpos es
      (update new (f.bucketIdx cnt e) (e :: new (f.bucketIdx cnt e))) (by
        intro i hi x hx
        by_cases hidx : i = f.bucketIdx cnt e
        · subst hidx
          rw [update_self] at hx
          rcases mem_cons.mp hx with rfl | hx
          · rfl
          · exact hp _ hlt x hx
        · rw [update_of_ne hidx] at hx
          exact hp i hi x hx)
    refine ⟨hperm.trans ?_, hplaced⟩
    exact ((flat_update_cons hlt).append_left es).trans perm_middle

theorem moveBuckets_spec (hpos : 0 < cnt) (old : ℕ → List α) : ∀ n : ℕ,
    (flat (moveBuckets f cnt old (fun _ => []) n) cnt).Perm (flat old n) ∧
      ∀ i < cnt, ∀ e ∈ moveBuckets f cnt old (fun _ => []) n i, f.bucketIdx cnt e = i
  | 0 => ⟨by rw [moveBuckets, flat_eq_nil fun _ _ => rfl, flat_zero], nofun⟩
  | n + 1 => by
    obtain ⟨ihperm, ihplaced⟩ := moveBuckets_spec hpos old n
    obtain ⟨hperm, hplaced⟩ := moveBucket_spec hpos (old n) _ ihplaced
    refine ⟨?_, hplaced⟩
    rw [flat_succ]
    exact hperm.trans ((ihperm.append_left _).trans perm_append_comm)

theorem initBuckets_eq (b : ℕ → List α) : ∀ {n i : ℕ}, i < n → initBuckets b n i = []
  | 0, i, hi => absurd hi (Nat.not_lt_zero i)
  | n + 1, i, hi => by
    unfold initBuckets
    by_cases e : i = n
    · subst e
      exact update_self ..
    · rw [update_of_ne e]
      exact initBuckets_eq b (by omega)

theorem hashClear_elems (h : HashTable α) (d : Bool) : (h.hashClear d).1.elems = [] :=
  flat_eq_nil fun _ hi => initBuckets_eq _ hi

end HashTable

namespace HashInv

open HashTable

variable {f : HashFns α} {h : HashTable α} {e : α}

theorem rehash (hi : HashInv f h) (granted : Bool) :
    HashInv f (h.rehash f granted) ∧ (h.rehash f granted).elems.Perm h.elems := by
  obtain ⟨hpow, hfour⟩ := newBucketCnt_spec h.elemCnt
  unfold HashTable.rehash
  simp only
  split
  · exact ⟨hi, List.Perm.refl _⟩
  split
  · obtain ⟨hperm, hplaced⟩ :=
      moveBuckets_spec (f := f) (Nat.lt_of_lt_of_le (by omega) hfour) h.buckets h.bucketCnt
    exact ⟨of_perm hperm hi.distinct hi.count hpow hfour hplaced, hperm⟩
  · exact ⟨hi, List.Perm.refl _⟩

theorem hashClear (hpow : ∃ k, h.bucketCnt = 2 ^ k) (hfour : 4 ≤ h.bucketCnt) (d : Bool) :
    HashInv f (h.hashClear d).1 := by
  have hnil := hashClear_elems h d
  refine ⟨hpow, hfour, fun i hlt x hx => ?_, ?_, ?_⟩
  · have hempty : (h.hashClear d).1.buckets i = [] := initBuckets_eq h.buckets hlt
    rw [hempty] at hx
    exact absurd hx not_mem_nil
  · rw [hnil]
    exact List.Pairwise.nil
  · rw [hnil]
    rfl

theorem start {junk : ℕ → List α} {granted : Bool} (hs : hashInit junk granted = some h) :
    HashInv f h := by
  unfold hashInit at hs
  split at hs
  · cases hs
    exact hashClear ⟨2, rfl⟩ (Nat.le_refl 4) false
  · cases hs

/-- `insert_elem` of an element that is not there, with the `rehash` that follows. -/
theorem insertRehash (hi : HashInv f h) (hnew : ∀ x ∈ h.elems, f.same x e = false)
    (granted : Bool) : HashInv f ((h.insertElem (f.bucketIdx h.bucketCnt e) e).rehash f granted) ∧
      ((h.insertElem (f.bucketIdx h.bucketCnt e) e).rehash f granted).set = insert e h.set := by
  obtain ⟨hins, hperm⟩ := hi.insertElem hnew
  obtain ⟨hinv, hperm'⟩ := hins.rehash granted
  exact ⟨hinv, Set.ext fun _ => (hperm'.trans hperm).mem_iff.trans mem_cons⟩

theorem rehash_set (hi : HashInv f h) (granted : Bool) : (h.rehash f granted).set = h.set :=
  Set.ext fun _ => (hi.rehash granted).2.mem_iff

theorem call [DecidableEq α] (hi : HashInv f h) (granted : Bool) (op : HashOp α) :
    HashInv f (hashCall f h granted op).2 ∧
      Returns f h.set op (hashCall f h granted op).1 ∧
      (hashCall f h granted op).2.set = setAfter h.set op (hashCall f h granted op).1 := by
  cases op with
  | insert e =>
    have hfound := hi.found e
    simp only [hashCall, HashTable.hashInsert, Returns]
    generalize h.findElem f (f.bucketIdx h.bucketCnt e) e = r at hfound ⊢
    cases r with
    | some x => exact ⟨(hi.rehash granted).1, hfound, hi.rehash_set granted⟩
    | none =>
      obtain ⟨hinv, hset⟩ := hi.insertRehash hfound granted
      exact ⟨hinv, hfound, hset⟩
  | replace e =>
    have hfound := hi.found e
    simp only [hashCall, HashTable.hashReplace, Returns]
    generalize h.findElem f (f.bucketIdx h.bucketCnt e) e = r at hfound ⊢
    cases r with
    | some x =>
      obtain ⟨hx, hsame⟩ := hfound
      obtain ⟨hrem, hset, hother⟩ := hi.removeElem hx
      -- what is the same as the new element would be the same as the old one
      have hnew : ∀ y ∈ (h.removeElem x).elems, f.same y e = false := by
        intro y hy
        by_contra hye
        have hye : f.same y e = true := Bool.not_eq_false _ ▸ hye
        have hxy := HashFns.same_trans hsame (HashFns.same_comm.trans hye)
        exact absurd (hxy.symm.trans (hother y hy)) nofun
      obtain ⟨hinv, hset'⟩ := hrem.insertRehash hnew granted
      rw [hset] at hset'
      exact ⟨hinv, ⟨hx, hsame⟩, hset'⟩
    | none =>
      obtain ⟨hinv, hset⟩ := hi.insertRehash hfound granted
      exact ⟨hinv, hfound, hset⟩
  | delete e =>
    have hfound := hi.found e
    simp only [hashCall, HashTable.hashDelete, Returns]
    generalize h.findElem f (f.bucketIdx h.bucketCnt e) e = r at hfound ⊢
    cases r with
    | some x =>
      obtain ⟨hrem, hset, -⟩ := hi.removeElem hfound.1
      exact ⟨(hrem.rehash granted).1, hfound, (hrem.rehash_set granted).trans hset⟩
    | none => exact ⟨hi, hfound, rfl⟩
  | find e => exact ⟨hi, hi.found e, rfl⟩
  | clear d =>
    refine ⟨hashClear hi.power hi.four d, rfl, Set.ext fun x => ?_⟩
    show x ∈ (h.hashClear d).1.elems ↔ x ∈ (∅ : Set α)
    rw [hashClear_elems]
    exact ⟨nofun, nofun⟩

end HashInv

/-! ## 7. Iteration -/

namespace HashTable

variable {h : HashTable α}

/-- What an iterator has still to visit. -/
def ahead (h : HashTable α) (i : HashIter α) : List α :=
  i.rest ++ ((List.range' (i.bucket + 1) (h.bucketCnt - (i.bucket + 1))).flatMap h.buckets)

/-- **The loop of `hash_next`** finds the next element that is ahead. -/
theorem nextFrom_spec : ∀ (fuel : ℕ) (i : HashIter α), i.bucket < h.bucketCnt →
    h.bucketCnt - i.bucket ≤ fuel →
    match h.ahead i with
    | [] => (h.nextFrom fuel i).1 = none
    | e :: es => (h.nextFrom fuel i).1 = some e ∧ h.ahead (h.nextFrom fuel i).2 = es ∧
        (h.nextFrom fuel i).2.bucket < h.bucketCnt
  | 0, i, hlt, hf => by omega
  | fuel + 1, ⟨bucket, []⟩, hlt, hf => by
    simp only at hlt hf
    by_cases hlast : bucket + 1 ≥ h.bucketCnt
    · have hn : h.bucketCnt - (bucket + 1) = 0 := by omega
      simp [ahead, nextFrom, hlast, hn]
    · have hn : h.bucketCnt - (bucket + 1) = h.bucketCnt - (bucket + 1 + 1) + 1 := by omega
      have hsame : h.ahead ⟨bucket, []⟩ = h.ahead ⟨bucket + 1, h.buckets (bucket + 1)⟩ := by
        simp only [ahead, nil_append]
        rw [hn, range'_succ, flatMap_cons]
      have ih := nextFrom_spec fuel ⟨bucket + 1, h.buckets (bucket + 1)⟩
        (by simp only; omega) (by simp only; omega)
      rw [hsame]
      simpa only [nextFrom, if_neg hlast] using ih
  | fuel + 1, ⟨bucket, e :: rest⟩, hlt, _ => ⟨rfl, rfl, hlt⟩

theorem hashNexts_eq : ∀ (es : List α) {i : HashIter α}, i.bucket < h.bucketCnt →
    h.ahead i = es → h.hashNexts (es.length + 1) i = es.map some ++ [none]
  | [], i, hlt, ha => by
    have hnext := nextFrom_spec _ i hlt (Nat.le_refl _)
    rw [ha] at hnext
    simp only at hnext
    simp [hashNexts, hashNext, hnext]
  | e :: es, i, hlt, ha => by
    have hnext := nextFrom_spec _ i hlt (Nat.le_refl _)
    rw [ha] at hnext
    obtain ⟨hr, hes, hlt'⟩ := hnext
    have ih := hashNexts_eq es hlt' hes
    rw [length_cons, hashNexts, map_cons, cons_append]
    unfold hashNext
    rw [hr, ih]

theorem ahead_first (hpos : 0 < h.bucketCnt) : h.ahead h.hashFirst = h.elems := by
  have hn : h.bucketCnt = h.bucketCnt - 1 + 1 := by omega
  unfold ahead hashFirst elems flat
  rw [range_eq_range']
  nth_rewrite 2 [hn]
  rw [range'_succ, flatMap_cons]

end HashTable

/-! ## 8. The result -/

/-- **Between two calls the table is a set**, and the iteration lists it. -/
structure HashSound [DecidableEq α] (f : HashFns α) (h : HashTable α) : Prop where
  inv : HashInv f h
  /-- The iteration visits every element, each one once, and then returns null. -/
  visits : h.hashNexts (h.elemCnt + 1) h.hashFirst = h.elems.map some ++ [none]
  once : h.elems.Nodup
  /-- Every call returns what it returns on the set, and does to the table what it does to the
      set. -/
  refines : ∀ granted op, Returns f h.set op (hashCall f h granted op).1 ∧
    (hashCall f h granted op).2.set = setAfter h.set op (hashCall f h granted op).1

/-- **The hash table is a set**: from `hash_init` on, through any sequence of calls and whatever the
    allocations in `rehash` give. -/
theorem hash_refines_set [DecidableEq α] (f : HashFns α) {junk : ℕ → List α} {granted : Bool}
    {h₀ h : HashTable α} (h₁ : HashTable.hashInit junk granted = some h₀)
    (hr : Reach (hashStep f) always h₀ h) : HashSound f h := by
  have hinv : HashInv f h := by
    refine hr.invariant (I := HashInv f) (.start h₁) fun h c h' hi _ hs => ?_
    cases hs
    exact (hi.call c.2 c.1).1
  refine ⟨hinv, ?_, ?_, fun granted op => (hinv.call granted op).2⟩
  · rw [hinv.count]
    exact HashTable.hashNexts_eq h.elems hinv.pos (HashTable.ahead_first hinv.pos)
  · refine hinv.distinct.imp fun {a b} hab heq => ?_
    rw [heq, HashFns.same_refl] at hab
    cases hab

/-- Numbers, with the hash of the last two bits. -/
def numberFns : HashFns ℕ where
  hash n := UInt32.ofNat (n % 4)
  less a b := decide (a < b)
  irrefl := by simp
  trans a b c hab hbc := by
    simp only [decide_eq_true_eq] at hab hbc ⊢
    omega
  incomp a b c h₁ h₂ h₃ h₄ := by
    simp only [decide_eq_false_iff_not] at h₁ h₂ h₃ h₄ ⊢
    omega
  hash_eq a b h₁ h₂ := by
    simp only [decide_eq_false_iff_not] at h₁ h₂
    have hab : a = b := by omega
    rw [hab]

/-- Seventeen numbers: the sixteenth asks for more buckets in vain, the last one gets them. -/
theorem hash_refines_set_grown : ∃ h : HashTable ℕ,
    Reach (hashStep numberFns) always ⟨0, 4, HashTable.initBuckets (fun _ => []) 4⟩ h ∧
      HashSound numberFns h ∧ h.elemCnt = 17 ∧ h.bucketCnt = 8 := by
  have hrun : (runList (hashStep numberFns) ⟨0, 4, HashTable.initBuckets (fun _ => []) 4⟩
      ((List.range 16).map (fun n => (.insert n, false)) ++ [(.insert 16, true)])).map
        (fun h => (h.elemCnt, h.bucketCnt)) = some (17, 8) := by decide +kernel
  obtain ⟨h, hh, heq⟩ := Option.map_eq_some_iff.mp hrun
  have hr : Reach (hashStep numberFns) always _ h := reach_runList _ (fun _ _ _ => trivial) hh
  have hinit : HashTable.hashInit (fun _ : ℕ => ([] : List ℕ)) true = some _ := rfl
  exact ⟨h, hr, hash_refines_set numberFns hinit hr,
    congrArg (·.1) heq, congrArg (·.2) heq⟩

end Pintos
