/-
  Subject:   `construct_ESP`: the arguments of a new process, taken from the command line and laid
             out on its stack for `_start`.

  A C string is the list of its bytes before the null byte. `strtok_r` ends a token by writing a
  null byte over the space behind it, so a token is the bytes up to that space.

  * The locals `argv_addr` and `success` are not initialised. If an allocation fails, the code goes
    to `done` with what they happen to hold; `EspOutcomes` says what that is.
  * The stack grows down from `PHYS_BASE` through `push`; each store is recorded with its range,
    whether or not the page is mapped. Nothing compares the stack pointer with the end of the page.
  * **`construct_ESP_iff`**: the stack is right exactly if it fits in one page; a failed allocation
    is harmless exactly if the uninitialised locals it uses happen to be 0.
-/
import Pintos.Lib.Memory
import Pintos.Filesys.FsInv
import Pintos.Klib.Strtok
import Pintos.Userprog.Pagedir
import Mathlib.Data.List.TakeWhile
import Mathlib.Data.List.GetD

namespace Pintos

open Lib Function List Nat

/-- The bytes of a string, without the null byte that ends it. -/
abbrev Bytes := List UInt8

/-! ## 1. The command line -/

/-- `' '`. -/
def space : UInt8 := 32

/-- `strtok_r (s, " ", &save_ptr)`: the token, and the string that `save_ptr` points to. -/
def strtokR (s : Bytes) : Option (Bytes × Bytes) :=
  match s.dropWhile (· == space) with
  | [] => none
  | c :: t => some ((c :: t).takeWhile (· != space), ((c :: t).dropWhile (· != space)).tail)

/-- The bytes of a buffer from position `a` up to `b`. -/
def bytesBetween (buf : ℕ → UInt8) (a b : ℕ) : Bytes := (range' a (b - a)).map buf

section OnMemory

variable {buf str : ℕ → UInt8} {a b c i j n p : ℕ}

theorem bytesBetween_append (hab : a ≤ b) (hbc : b ≤ c) :
    bytesBetween buf a b ++ bytesBetween buf b c = bytesBetween buf a c := by
  obtain ⟨x, rfl⟩ := Nat.exists_eq_add_of_le hab
  obtain ⟨y, rfl⟩ := Nat.exists_eq_add_of_le hbc
  unfold bytesBetween
  rw [← map_append, Nat.add_sub_cancel_left, Nat.add_sub_cancel_left, range'_append_1, Nat.add_assoc,
    Nat.add_sub_cancel_left]

theorem bytesBetween_cons (h : a < b) :
    bytesBetween buf a b = buf a :: bytesBetween buf (a + 1) b := by
  unfold bytesBetween
  rw [show b - a = b - (a + 1) + 1 by omega, range'_succ, map_cons]

theorem bytesBetween_self (h : b ≤ a) : bytesBetween buf a b = [] := by
  unfold bytesBetween
  rw [Nat.sub_eq_zero_of_le h]
  rfl

theorem mem_bytesBetween {x : UInt8} (h : x ∈ bytesBetween buf a b) :
    ∃ k, a ≤ k ∧ k < b ∧ buf k = x := by
  obtain ⟨k, hk, rfl⟩ := mem_map.mp h
  have hrange := mem_range'_1.mp hk
  exact ⟨k, by omega, by omega, rfl⟩

theorem bytesBetween_congr {buf' : ℕ → UInt8} (h : ∀ k, a ≤ k → k < b → buf k = buf' k) :
    bytesBetween buf a b = bytesBetween buf' a b := by
  refine map_congr_left fun k hk => ?_
  have hrange := mem_range'_1.mp hk
  exact h k (by omega) (by omega)

/-- The bytes of the token and behind it. -/
theorem strtokR_next (h : NextToken [space] str n p i j) : strtokR (bytesBetween str p n) =
    some (bytesBetween str i j, bytesBetween str (resume n j) n) := by
  obtain ⟨hpi, hij, hjn, hskip, hfree, hend⟩ := h
  have hspaces : ∀ x ∈ bytesBetween str p i, (x == space) = true := fun x hx => by
    obtain ⟨k, h1, h2, rfl⟩ := mem_bytesBetween hx
    exact beq_iff_eq.mpr (mem_singleton.mp (hskip k h1 h2))
  have htoken : ∀ x ∈ bytesBetween str i j, (x != space) = true := fun x hx => by
    obtain ⟨k, h1, h2, rfl⟩ := mem_bytesBetween hx
    exact bne_iff_ne.mpr fun he => hfree k h1 h2 (mem_singleton.mpr he)
  have hrest : (bytesBetween str j n).takeWhile (· != space) = [] ∧
      (bytesBetween str j n).dropWhile (· != space) = bytesBetween str j n ∧
      (bytesBetween str j n).tail = bytesBetween str (resume n j) n := by
    unfold resume
    split
    · rename_i hlt
      have hs : str j = space := mem_singleton.mp (hend.resolve_left (by omega))
      rw [bytesBetween_cons hlt, hs]
      exact ⟨rfl, rfl, rfl⟩
    · rw [bytesBetween_self (by omega), bytesBetween_self (le_refl n)]
      exact ⟨rfl, rfl, rfl⟩
  have hdrop : (bytesBetween str p n).dropWhile (· == space) =
      str i :: (bytesBetween str (i + 1) j ++ bytesBetween str j n) := by
    have hi : ¬(str i == space) = true := fun he =>
      hfree i (le_refl i) hij (mem_singleton.mpr (beq_iff_eq.mp he))
    rw [← bytesBetween_append hpi (by omega), ← bytesBetween_append (le_of_lt hij) hjn,
      dropWhile_append_of_pos hspaces, bytesBetween_cons hij, cons_append]
    exact dropWhile_cons_of_neg hi
  unfold strtokR
  rw [hdrop]
  dsimp only
  rw [← cons_append, ← bytesBetween_cons hij, takeWhile_append_of_pos htoken,
    dropWhile_append_of_pos htoken, hrest.1, hrest.2.1, hrest.2.2, append_nil]

theorem strtokR_end (h : ∀ k, p ≤ k → k < n → str k ∈ [space]) :
    strtokR (bytesBetween str p n) = none := by
  have hdrop : (bytesBetween str p n).dropWhile (· == space) = [] := by
    refine dropWhile_eq_nil_iff.mpr fun x hx => ?_
    obtain ⟨k, h1, h2, rfl⟩ := mem_bytesBetween hx
    exact beq_iff_eq.mpr (mem_singleton.mp (h k h1 h2))
  unfold strtokR
  rw [hdrop]

/-- **`strtokR` is `strtok_r`**: what a call finds in memory and leaves there are the token and the rest
    of the bytes. -/
theorem strtokMem_strtokR {fuel save : ℕ} {s : Option ℕ} (hstr : NullTerminated str n)
    (hs : s.getD save = p) (hp : p ≤ n) (hsame : SameFrom str n p buf) (hfuel : n < fuel) :
    ∃ c, strtokMem [space] n fuel buf s save = some c ∧ SameFrom str n c.save c.buf ∧
      match c.token with
      | none => strtokR (bytesBetween buf p n) = none
      | some i => ∃ j, c.buf j = 0 ∧ strtokR (bytesBetween buf p n) =
          some (bytesBetween c.buf i j, bytesBetween c.buf c.save n) := by
  have hbytes : bytesBetween buf p n = bytesBetween str p n :=
    bytesBetween_congr fun k h1 h2 => hsame k h1 (Nat.le_of_lt h2)
  rw [hbytes]
  rcases next_or_none [space] str hp with hall | ⟨i, j, hnext⟩
  · exact ⟨_, strtok_none hstr hs hp hsame hfuel hall, hsame.mono hp, strtokR_end hall⟩
  · have hpj : p ≤ j := Nat.le_trans hnext.start (Nat.le_of_lt hnext.lt)
    have hafter := hsame.cutAt hpj hnext.le
    refine ⟨_, strtok_next hstr hs hsame hfuel hnext, hafter, j, ?_, ?_⟩
    · show (if j = j ∧ j < n then 0 else buf j) = 0
      split
      · rfl
      · have hle := hnext.le
        obtain rfl : j = n := by omega
        rw [hsame j hpj hle, hstr.ended]
    · have htoken : bytesBetween (cutAt n j buf) i j = bytesBetween str i j :=
        bytesBetween_congr fun k h1 h2 => by
          unfold cutAt
          rw [if_neg fun h => Nat.ne_of_lt h2 h.1]
          exact hsame k (Nat.le_trans hnext.start h1) (Nat.le_trans (Nat.le_of_lt h2) hnext.le)
      rw [strtokR_next hnext, htoken,
        bytesBetween_congr fun k h1 h2 => hafter k h1 (Nat.le_of_lt h2)]

end OnMemory

/-- **The arguments**: the maximal substrings without a space. -/
def words (s : Bytes) : List Bytes := (s.splitOn space).filter (· ≠ [])

theorem words_cons_space (s : Bytes) : words (space :: s) = words s := by
  unfold words List.splitOn
  rw [splitOnP_cons_eq_if_modifyHead, if_pos (beq_self_eq_true space)]
  rfl

theorem words_dropWhile : ∀ s : Bytes, words (s.dropWhile (· == space)) = words s
  | [] => rfl
  | c :: s => by
    rw [List.dropWhile_cons]
    split
    · rename_i hc
      rw [eq_of_beq hc, words_cons_space]
      exact words_dropWhile s
    · rfl

variable {rest s tok : Bytes}

theorem strtokR_none (h : strtokR s = none) : words s = [] := by
  unfold strtokR at h
  split at h
  · rename_i hs
    rw [← words_dropWhile, hs]
    rfl
  · cases h

/-- What `strtok_r` cuts off. -/
structure Cut (s tok rest : Bytes) : Prop where
  words : words s = tok :: words rest
  tok_ne : tok ≠ []
  tok_sub : ∀ c ∈ tok, c ∈ s
  rest_sub : ∀ c ∈ rest, c ∈ s
  length : tok.length + rest.length ≤ s.length ∧
    (rest ≠ [] → tok.length + rest.length < s.length)

theorem cut_of_token {c : UInt8} (hc : c ≠ space) (t : Bytes) :
    Cut (c :: t) ((c :: t).takeWhile (· != space)) ((c :: t).dropWhile (· != space)).tail := by
  have hcat : (c :: t).takeWhile (· != space) ++ (c :: t).dropWhile (· != space) = c :: t :=
    takeWhile_append_dropWhile
  have htok : ∀ x ∈ (c :: t).takeWhile (· != space), (x == space) = false := by
    intro x hx
    simpa using mem_takeWhile_imp hx
  have hne : (c :: t).takeWhile (· != space) ≠ [] := by
    rw [takeWhile_cons, if_pos (by simpa using hc)]
    nofun
  generalize (c :: t).takeWhile (· != space) = tok at hcat htok hne ⊢
  cases hd : (c :: t).dropWhile (· != space) with
  | nil =>
    rw [hd, append_nil] at hcat
    subst hcat
    refine ⟨?_, hne, fun _ hx => hx, nofun, le_refl _, fun h => absurd rfl h⟩
    unfold Pintos.words List.splitOn
    rw [splitOnP_eq_singleton htok]
    simp
  | cons d r =>
    have hd' : d = space := by
      have hh := head_dropWhile_not (· != space) (l := c :: t) (by rw [hd]; nofun)
      simpa [hd] using hh
    rw [hd, hd'] at hcat
    rw [← hcat]
    refine ⟨?_, hne, fun x hx => mem_append_left _ hx,
      fun x hx => mem_append_right _ (mem_cons_of_mem _ hx), ?_⟩
    · unfold Pintos.words List.splitOn
      rw [splitOnP_append_cons_of_forall_mem htok space (beq_self_eq_true space),
        filter_cons_of_pos (by simpa using hne)]
      rfl
    · simp only [length_append, length_cons, tail_cons]
      omega

theorem strtokR_some (h : strtokR s = some (tok, rest)) : Cut s tok rest := by
  unfold strtokR at h
  split at h
  · cases h
  · rename_i c t hs
    cases h
    have hc : c ≠ space := by
      have hh := head_dropWhile_not (· == space) (l := s) (by rw [hs]; nofun)
      simpa [hs] using hh
    have hcut := cut_of_token hc t
    have hsub : ∀ x ∈ c :: t, x ∈ s := fun x hx =>
      (dropWhile_sublist (· == space)).subset (hs ▸ hx)
    have hlen : (c :: t).length ≤ s.length := hs ▸ (dropWhile_sublist (· == space)).length_le
    refine ⟨?_, hcut.tok_ne, fun x hx => hsub x (hcut.tok_sub x hx),
      fun x hx => hsub x (hcut.rest_sub x hx), le_trans hcut.length.1 hlen,
      fun hne => lt_of_lt_of_le (hcut.length.2 hne) hlen⟩
    rw [← words_dropWhile s, hs]
    exact hcut.words

/-- **Induction along the tokens**, as the loop of `construct_ESP` finds them. -/
theorem words_induction {P : Bytes → List Bytes → Prop} (nil : ∀ s, strtokR s = none → P s [])
    (cons : ∀ s tok rest, strtokR s = some (tok, rest) → P rest (words rest) →
      P s (tok :: words rest)) (s : Bytes) : P s (words s) := by
  induction hn : s.length using Nat.strong_induction_on generalizing s with
  | _ n ih =>
    cases hs : strtokR s with
    | none =>
      rw [strtokR_none hs]
      exact nil s hs
    | some x =>
      obtain ⟨tok, rest⟩ := x
      have hcut := strtokR_some hs
      have hpos := length_pos_iff.mpr hcut.tok_ne
      have hlen := hcut.length.1
      rw [hcut.words]
      exact cons s tok rest hs (ih rest.length (by omega) rest rfl)

theorem words_subset (s : Bytes) : ∀ w ∈ words s, ∀ c ∈ w, c ∈ s := by
  refine words_induction (P := fun s ws => ∀ w ∈ ws, ∀ c ∈ w, c ∈ s) (fun s _ => nofun) ?_ s
  intro s tok rest hs ih w hw c hc
  have hcut := strtokR_some hs
  rcases mem_cons.mp hw with rfl | hw
  · exact hcut.tok_sub c hc
  · exact hcut.rest_sub c (ih w hw c hc)

/-- The bytes of the strings with their null bytes. -/
def stringBytes (argv : List Bytes) : ℕ := (argv.map (·.length + 1)).sum

/-- The strings need no more room than the command line with its null byte. -/
theorem stringBytes_words (s : Bytes) : stringBytes (words s) ≤ s.length + 1 := by
  refine words_induction (P := fun s ws => stringBytes ws ≤ s.length + 1)
    (fun s _ => zero_le _) ?_ s
  intro s tok rest hs ih
  have hcut := (strtokR_some hs).length
  have hsum : stringBytes (tok :: words rest) = tok.length + 1 + stringBytes (words rest) := by
    simp [stringBytes]
  rw [hsum]
  by_cases hr : rest = []
  · subst hr
    have h0 : stringBytes (words []) = 0 := rfl
    omega
  · have hlt := hcut.2 hr
    omega

theorem length_le_stringBytes : ∀ argv : List Bytes, argv.length ≤ stringBytes argv
  | [] => Nat.le_refl _
  | w :: ws => by
    have ih := length_le_stringBytes ws
    simp only [stringBytes, map_cons, sum_cons, length_cons] at ih ⊢
    omega

/-! ## 2. The code -/

/-- What decides the run besides the command line: the outcomes of the allocations, and what the two
    locals hold before they are set. -/
structure EspOutcomes where
  /-- Whether the `realloc` for one more argument succeeds. -/
  realloc : ℕ → Bool
  malloc : Bool
  argvAddr : Word
  success : Bool

structure ArgStack where
  mem : ℕ → UInt8
  esp : ℕ
  /-- `argv_addr`. -/
  argvAddr : ℕ → ℕ
  /-- The ranges that have been stored to: address and number of bytes. -/
  writes : List (ℕ × ℕ)

/-- The bytes of a word in memory. -/
def wordBytes (n : ℕ) : List UInt8 := [wordByte n 0, wordByte n 1, wordByte n 2, wordByte n 3]

namespace ArgStack

/-- `*esp = *esp - n`, and a `memcpy` or `memset` of `n` bytes to there. -/
def push (s : ArgStack) (bs : List UInt8) : ArgStack :=
  { s with
    mem := store s.mem (s.esp - bs.length) bs
    esp := s.esp - bs.length
    writes := (s.esp - bs.length, bs.length) :: s.writes }

/-- `argv_addr[i] = *esp`. -/
def keepAddr (s : ArgStack) (i : ℕ) : ArgStack :=
  { s with argvAddr := update s.argvAddr i s.esp }

/-- The first loop, for the arguments before `i`. -/
def copyStrings (argv : List Bytes) : ℕ → ArgStack → ArgStack
  | 0, s => s
  | i + 1, s => copyStrings argv i ((s.push (argv.getD i [] ++ [0])).keepAddr i)

/-- The second loop. -/
def copyPointers : ℕ → ArgStack → ArgStack
  | 0, s => s
  | i + 1, s => copyPointers i (s.push (wordBytes (s.argvAddr i)))

/-- From the first loop to the fake return address. -/
def build (argv : List Bytes) (s : ArgStack) : ArgStack :=
  let n := argv.length
  let strings := ((copyStrings argv n s).push [0]).push [0, 0, 0, 0]
  let array := (copyPointers n strings).keepAddr n
  ((array.push (wordBytes (array.argvAddr n))).push (wordBytes n)).push [0, 0, 0, 0]

end ArgStack

/-- The loop over `strtok_r`: the arguments found, or `none` if the list cannot be enlarged. There
    are at most as many rounds as bytes. -/
def parseArgs (granted : ℕ → Bool) : ℕ → Bytes → List Bytes → Option (List Bytes)
  | 0, _, argv => some argv
  | fuel + 1, s, argv =>
    match strtokR s with
    | none => some argv
    | some (tok, rest) =>
      if granted argv.length then parseArgs granted fuel rest (argv ++ [tok]) else none

inductive EspResult where
  | returned (success : Bool) (s : ArgStack)
  /-- `free` is called with what an uninitialised pointer holds. -/
  | wildFree

/-- `construct_ESP` with `*esp == PHYS_BASE`. -/
def constructESP (o : EspOutcomes) (mem : ℕ → UInt8) (argvList : CString) : EspResult :=
  let s : ArgStack := ⟨mem, physBase.toNat, fun _ => 0, []⟩
  match parseArgs o.realloc (argvList.val.length + 1) argvList.val [] with
  | none => if o.argvAddr = 0#32 then .returned o.success s else .wildFree
  | some argv => if o.malloc then .returned true (s.build argv) else .returned o.success s

/-! ## 3. What `_start` expects -/

/-- The range lies in the page below `PHYS_BASE`. -/
def InStackPage (r : ℕ × ℕ) : Prop :=
  physBase.toNat - 4096 ≤ r.1 ∧ r.1 + r.2 ≤ physBase.toNat

/-- A pointer to a string. -/
def StringAt (mem : ℕ → UInt8) (p : ℕ) (s : Bytes) : Prop := 0 ∉ s ∧ Holds mem p (s ++ [0])

/-- `argv[i]` for the `argv` of `_start`. -/
def argvElem (mem : ℕ → UInt8) (esp i : ℕ) : ℕ := word mem (word mem (esp + 8) + 4 * i)

/-- The return address, `argc`, `argv`, the array and the strings. -/
def argRegions (mem : ℕ → UInt8) (esp : ℕ) (args : List Bytes) : List (ℕ × ℕ) :=
  (esp, 4) :: (esp + 4, 4) :: (esp + 8, 4) :: (word mem (esp + 8), 4 * (args.length + 1)) ::
    args.mapIdx fun i a => (argvElem mem esp i, a.length + 1)

/-- **The stack is decoded to exactly these arguments.** -/
structure Decodes (mem : ℕ → UInt8) (esp : ℕ) (args : List Bytes) : Prop where
  ret : word mem esp = 0
  argc : word mem (esp + 4) = args.length
  argv : ∀ i (h : i < args.length), StringAt mem (argvElem mem esp i) args[i]
  null : argvElem mem esp args.length = 0
  inside : ∀ r ∈ argRegions mem esp args, InStackPage r
  apart : (argRegions mem esp args).Pairwise fun r q => r.1 + r.2 ≤ q.1 ∨ q.1 + q.2 ≤ r.1

/-- A call that succeeds has written in the stack page only, and the stack is decoded to the
    arguments; nothing but a granted block is freed. -/
def EspResult.Right (args : List Bytes) : EspResult → Prop
  | .returned false _ => True
  | .returned true s => (∀ w ∈ s.writes, InStackPage w) ∧ Decodes s.mem s.esp args
  | .wildFree => False

/-- The arguments fit in one page: the strings, a byte, the array and three words. -/
def ArgsFit (args : List Bytes) : Prop := stringBytes args + 4 * args.length + 17 ≤ 4096

/-- **When it is met.** -/
def EspCond (o : EspOutcomes) (args : List Bytes) : Prop :=
  if ∀ k < args.length, o.realloc k = true then
    if o.malloc = true then ArgsFit args else o.success = false
  else o.argvAddr = 0#32 ∧ o.success = false

/-! ## 4. The loops -/

theorem parseArgs_eq (granted : ℕ → Bool) (s : Bytes) : ∀ (fuel : ℕ) (argv : List Bytes),
    s.length < fuel → parseArgs granted fuel s argv =
      if ∀ k < (words s).length, granted (argv.length + k) = true then some (argv ++ words s)
      else none := by
  refine words_induction (P := fun s ws => ∀ (fuel : ℕ) (argv : List Bytes), s.length < fuel →
    parseArgs granted fuel s argv =
      if ∀ k < ws.length, granted (argv.length + k) = true then some (argv ++ ws) else none) ?_ ?_ s
  · intro s hs fuel argv hf
    cases fuel with
    | zero => exact absurd hf (not_lt_zero _)
    | succ fuel => simp [parseArgs, hs]
  · intro s tok rest hs ih fuel argv hf
    cases fuel with
    | zero => exact absurd hf (not_lt_zero _)
    | succ fuel =>
      have hcut := strtokR_some hs
      have hpos := length_pos_iff.mpr hcut.tok_ne
      have hlen := hcut.length.1
      have hih := ih fuel (argv ++ [tok]) (by omega)
      simp only [parseArgs, hs]
      by_cases hg : granted argv.length = true
      · rw [if_pos hg, hih]
        have hiff : (∀ k < (words rest).length, granted ((argv ++ [tok]).length + k) = true) ↔
            ∀ k < (tok :: words rest).length, granted (argv.length + k) = true := by
          rw [length_append, length_cons, length_cons, length_nil]
          constructor
          · intro h k hk
            cases k with
            | zero => exact hg
            | succ k =>
              have hk' := h k (by omega)
              rwa [zero_add, add_assoc, add_comm 1 k] at hk'
          · intro h k hk
            have hk' := h (k + 1) (by omega)
            rwa [zero_add, add_assoc, add_comm 1 k]
        simp only [hiff, append_assoc, singleton_append]
      · rw [if_neg hg, if_neg]
        exact fun h => hg (h 0 (by simp))

variable {a esp i j k n : ℕ} {mem : ℕ → UInt8} {o : EspOutcomes} {line : CString}

namespace ArgStack

variable {s s' s'' : ArgStack} {bs : List UInt8} {argv : List Bytes}

/-- **The stack has only grown**: what was on it is unchanged, and all new stores are below. -/
structure Lower (s s' : ArgStack) : Prop where
  esp : s'.esp ≤ s.esp
  kept : ∀ a, s.esp ≤ a → s'.mem a = s.mem a
  writes : ∀ w ∈ s'.writes, w ∈ s.writes ∨ (s'.esp ≤ w.1 ∧ w.1 + w.2 ≤ s.esp)

theorem Lower.refl (s : ArgStack) : Lower s s := ⟨Nat.le_refl _, fun _ _ => rfl, fun _ => .inl⟩

theorem Lower.trans (h : Lower s s') (h' : Lower s' s'') : Lower s s'' where
  esp := le_trans h'.esp h.esp
  kept a ha := (h'.kept a (le_trans h.esp ha)).trans (h.kept a ha)
  writes w hw := by
    have hesp := h.esp
    have hesp' := h'.esp
    rcases h'.writes w hw with hw | hw
    · rcases h.writes w hw with hw | hw
      · exact .inl hw
      · exact .inr ⟨by omega, hw.2⟩
    · exact .inr ⟨hw.1, by omega⟩

theorem Lower.push (h : Lower s s') (hroom : bs.length ≤ s'.esp) : Lower s (s'.push bs) := by
  refine h.trans ⟨sub_le _ _, fun a ha => ?_, fun w hw => ?_⟩
  · exact store_of_le (by omega)
  · rcases mem_cons.mp hw with rfl | hw
    · exact .inr ⟨le_refl _, by show s'.esp - bs.length + bs.length ≤ s'.esp; omega⟩
    · exact .inl hw

theorem Lower.holds (h : Lower s s') (ha : s.esp ≤ a) (hh : Holds s.mem a bs) : Holds s'.mem a bs :=
  hh.congr fun k hk _ => h.kept k (Nat.le_trans ha hk)

theorem push_holds : Holds (s.push bs).mem (s.push bs).esp bs := holds_store

theorem stringBytes_take_succ (argv : List Bytes) (hi : i < argv.length) :
    stringBytes (argv.take (i + 1)) = stringBytes (argv.take i) + (argv[i].length + 1) := by
  unfold stringBytes
  rw [take_succ_eq_append_getElem hi, map_append, List.sum_append]
  simp

/-- **The first loop**: the strings lie one behind the other from the new stack pointer on. -/
theorem copyStrings_spec (argv : List Bytes) : ∀ (i : ℕ) {s : ArgStack}, i ≤ argv.length →
    stringBytes (argv.take i) ≤ s.esp →
    Lower s (copyStrings argv i s) ∧
      (copyStrings argv i s).esp = s.esp - stringBytes (argv.take i) ∧
      (∀ j, i ≤ j → (copyStrings argv i s).argvAddr j = s.argvAddr j) ∧
      ∀ j (hj : j < argv.length), j < i →
        (copyStrings argv i s).argvAddr j =
          (copyStrings argv i s).esp + stringBytes (argv.take j) ∧
        Holds (copyStrings argv i s).mem ((copyStrings argv i s).argvAddr j) (argv[j] ++ [0])
  | 0, s, _, _ => ⟨.refl s, rfl, fun _ _ => rfl, nofun⟩
  | i + 1, s, hi, hroom => by
    have hlt : i < argv.length := hi
    have hsum := stringBytes_take_succ argv hlt
    have hstr : argv.getD i [] = argv[i] := getD_eq_getElem argv [] hlt
    rw [hsum] at hroom
    have hlen : (argv[i] ++ [0]).length = argv[i].length + 1 := by simp
    simp only [copyStrings, hstr]
    -- the state after the string `i` has been copied
    obtain ⟨s₁, hs1⟩ : ∃ s₁, s₁ = (s.push (argv[i] ++ [0])).keepAddr i := ⟨_, rfl⟩
    have hlow : Lower s s₁ := by
      have hpush : Lower s (s.push (argv[i] ++ [0])) := (Lower.refl s).push (by omega)
      rw [hs1]
      exact ⟨hpush.esp, hpush.kept, hpush.writes⟩
    have hesp : s₁.esp = s.esp - (argv[i].length + 1) := by
      rw [hs1, ← hlen]
      rfl
    have haddr : s₁.argvAddr i = s₁.esp := by
      rw [hs1]
      exact update_self ..
    have hother : ∀ j, j ≠ i → s₁.argvAddr j = s.argvAddr j := by
      intro j hj
      rw [hs1]
      exact update_of_ne hj ..
    have hholds : Holds s₁.mem s₁.esp (argv[i] ++ [0]) := by
      rw [hs1]
      exact push_holds
    rw [← hs1]
    obtain ⟨hlow', hesp', hkeep, hall⟩ := copyStrings_spec argv i (s := s₁) (by omega) (by omega)
    refine ⟨hlow.trans hlow', by omega, fun j hj => ?_, fun j hj hji => ?_⟩
    · rw [hkeep j (by omega), hother j (by omega)]
    · by_cases e : j = i
      · subst e
        rw [hkeep j (le_refl j), haddr]
        exact ⟨by omega, hlow'.holds (le_refl _) hholds⟩
      · exact hall j hj (by omega)

/-- **The second loop**: the addresses lie one behind the other from the new stack pointer on. -/
theorem copyPointers_spec : ∀ (i : ℕ) {s : ArgStack}, 4 * i ≤ s.esp →
    Lower s (copyPointers i s) ∧ (copyPointers i s).esp = s.esp - 4 * i ∧
      ∀ j < i, Holds (copyPointers i s).mem ((copyPointers i s).esp + 4 * j)
        (wordBytes (s.argvAddr j))
  | 0, s, _ => ⟨.refl s, rfl, nofun⟩
  | i + 1, s, hroom => by
    have hlen : (wordBytes (s.argvAddr i)).length = 4 := rfl
    obtain ⟨s₁, hs1⟩ : ∃ s₁, s₁ = s.push (wordBytes (s.argvAddr i)) := ⟨_, rfl⟩
    have hlow : Lower s s₁ := hs1 ▸ (Lower.refl s).push (by omega)
    have hesp : s₁.esp = s.esp - 4 := by
      rw [hs1]
      rfl
    have hsame : s₁.argvAddr = s.argvAddr := by
      rw [hs1]
      rfl
    have hholds : Holds s₁.mem s₁.esp (wordBytes (s.argvAddr i)) := by
      rw [hs1]
      exact push_holds
    simp only [copyPointers]
    rw [← hs1]
    obtain ⟨hlow', hesp', hall⟩ := copyPointers_spec i (s := s₁) (by omega)
    refine ⟨hlow.trans hlow', by omega, fun j hj => ?_⟩
    by_cases e : j = i
    · subst e
      have hat : (copyPointers j s₁).esp + 4 * j = s₁.esp := by omega
      rw [hat]
      exact hlow'.holds (le_refl _) hholds
    · rw [← hsame]
      exact hall j (by omega)

theorem stringBytes_take_le (argv : List Bytes) (hjk : j ≤ k) (hk : k ≤ argv.length) :
    stringBytes (argv.take j) ≤ stringBytes (argv.take k) := by
  induction k, hjk using le_induction with
  | base => exact le_refl _
  | succ k _ ih =>
    have hsum := stringBytes_take_succ argv (i := k) hk
    omega

end ArgStack

/-! ## 5. The layout -/

/-- **What lies where** above the stack pointer: return address, `argc`, `argv`, the array with its
    null pointer, one byte, and the strings. -/
structure Laid (mem : ℕ → UInt8) (esp : ℕ) (args : List Bytes) : Prop where
  ret : Holds mem esp (wordBytes 0)
  argc : Holds mem (esp + 4) (wordBytes args.length)
  argv : Holds mem (esp + 8) (wordBytes (esp + 12))
  pointer : ∀ j < args.length, Holds mem (esp + 12 + 4 * j)
    (wordBytes (esp + 17 + 4 * args.length + stringBytes (args.take j)))
  null : Holds mem (esp + 12 + 4 * args.length) (wordBytes 0)
  string : ∀ j (hj : j < args.length), Holds mem
    (esp + 17 + 4 * args.length + stringBytes (args.take j)) (args[j] ++ [0])

/-- **The code produces that layout**, below the stack pointer it starts from. -/
theorem ArgStack.build_spec (argv : List Bytes) {s : ArgStack}
    (hroom : stringBytes argv + 4 * argv.length + 17 ≤ s.esp) : ArgStack.Lower s (s.build argv) ∧
      (s.build argv).esp = s.esp - (stringBytes argv + 4 * argv.length + 17) ∧
      ((s.build argv).esp, 4) ∈ (s.build argv).writes ∧
      Laid (s.build argv).mem (s.build argv).esp argv := by
  have hall : argv.take argv.length = argv := take_length
  obtain ⟨hlowA, hespA, -, hstr⟩ := copyStrings_spec argv argv.length (s := s)
    (le_refl _) (by rw [hall]; omega)
  rw [hall] at hespA
  simp only [ArgStack.build]
  generalize copyStrings argv argv.length s = A at hlowA hespA hstr ⊢
  -- the byte and the null pointer behind the array
  have hlowB : Lower A ((A.push [0]).push [0, 0, 0, 0]) :=
    ((Lower.refl A).push (by simp; omega)).push (by simp [push]; omega)
  have hespB : ((A.push [0]).push [0, 0, 0, 0]).esp = A.esp - 5 := by
    simp [push]
    omega
  have hnull : Holds ((A.push [0]).push [0, 0, 0, 0]).mem
    ((A.push [0]).push [0, 0, 0, 0]).esp (wordBytes 0) := push_holds
  have haddr : ((A.push [0]).push [0, 0, 0, 0]).argvAddr = A.argvAddr := rfl
  generalize (A.push [0]).push [0, 0, 0, 0] = B at hlowB hespB hnull haddr ⊢
  obtain ⟨hlowC, hespC, hptr⟩ := copyPointers_spec argv.length (s := B) (by omega)
  generalize copyPointers argv.length B = C at hlowC hespC hptr ⊢
  have hself : (C.keepAddr argv.length).argvAddr argv.length = C.esp := update_self ..
  rw [hself]
  -- the three words in front of the array
  have hlowK : Lower C (C.keepAddr argv.length) := ⟨le_refl _, fun _ _ => rfl, fun _ => .inl⟩
  have hespK : (C.keepAddr argv.length).esp = C.esp := rfl
  generalize C.keepAddr argv.length = K at hlowK hespK ⊢
  have hlowD : Lower K (K.push (wordBytes C.esp)) :=
    (Lower.refl K).push (by simp [wordBytes]; omega)
  have hespD : (K.push (wordBytes C.esp)).esp = C.esp - 4 := by
    rw [← hespK]
    rfl
  have hD : Holds (K.push (wordBytes C.esp)).mem (K.push (wordBytes C.esp)).esp (wordBytes C.esp) :=
    push_holds
  generalize K.push (wordBytes C.esp) = D at hlowD hespD hD ⊢
  have hlowF : Lower D (D.push (wordBytes argv.length)) :=
    (Lower.refl D).push (by simp [wordBytes]; omega)
  have hespF : (D.push (wordBytes argv.length)).esp = D.esp - 4 := rfl
  have hF : Holds (D.push (wordBytes argv.length)).mem (D.push (wordBytes argv.length)).esp
    (wordBytes argv.length) := push_holds
  generalize D.push (wordBytes argv.length) = F at hlowF hespF hF ⊢
  have hlowG : Lower F (F.push [0, 0, 0, 0]) := (Lower.refl F).push (by simp; omega)
  have hespG : (F.push [0, 0, 0, 0]).esp = F.esp - 4 := rfl
  have hG : Holds (F.push [0, 0, 0, 0]).mem (F.push [0, 0, 0, 0]).esp (wordBytes 0) := push_holds
  have hwrite : ((F.push [0, 0, 0, 0]).esp, 4) ∈ (F.push [0, 0, 0, 0]).writes :=
    mem_cons_self
  generalize F.push [0, 0, 0, 0] = G at hlowG hespG hG hwrite ⊢
  have hDG := hlowF.trans hlowG
  have hCG := hlowK.trans (hlowD.trans hDG)
  have hBG := hlowC.trans hCG
  have hAG := hlowB.trans hBG
  refine ⟨hlowA.trans hAG, by omega, hwrite, hG, ?_, ?_, fun j hj => ?_, ?_, fun j hj => ?_⟩
  · rw [show G.esp + 4 = F.esp by omega]
    exact hlowG.holds (le_refl _) hF
  · rw [show G.esp + 8 = D.esp by omega, show G.esp + 12 = C.esp by omega]
    exact hDG.holds (le_refl _) hD
  · have h := hptr j hj
    rw [haddr, (hstr j hj hj).1] at h
    rw [show G.esp + 12 + 4 * j = C.esp + 4 * j by omega,
      show G.esp + 17 + 4 * argv.length = A.esp by omega]
    exact hCG.holds (le_add_right _ _) h
  · rw [show G.esp + 12 + 4 * argv.length = B.esp by omega]
    exact hBG.holds (le_refl _) hnull
  · obtain ⟨hat, hh⟩ := hstr j hj hj
    rw [show G.esp + 17 + 4 * argv.length = A.esp by omega, ← hat]
    exact hAG.holds (by omega) hh

theorem word_of_holds (h : Holds mem a (wordBytes n)) (hn : n < 2 ^ 32) : word mem a = n := by
  refine word_wordByte hn fun k hk => ?_
  rw [h k hk]
  unfold wordBytes
  match k, hk with
  | 0, _ | 1, _ | 2, _ | 3, _ => rfl

/-- **`_start` decodes the layout.** -/
theorem Laid.decodes {argv : List Bytes} (h : Laid mem esp argv) (hnull : ∀ w ∈ argv, 0 ∉ w)
    (hlow : physBase.toNat - 4096 ≤ esp)
    (hhigh : esp + (stringBytes argv + 4 * argv.length + 17) = physBase.toNat) :
    Decodes mem esp argv := by
  have hsum {j : ℕ} (hj : j < argv.length) := ArgStack.stringBytes_take_succ argv hj
  have hmono {j k : ℕ} (hjk : j ≤ k) (hk : k ≤ argv.length) :=
    ArgStack.stringBytes_take_le argv hjk hk
  have hall : stringBytes (argv.take argv.length) = stringBytes argv := by rw [take_length]
  have hargv : word mem (esp + 8) = esp + 12 := word_of_holds h.argv (by omega)
  have helem : ∀ j < argv.length,
      argvElem mem esp j = esp + 17 + 4 * argv.length + stringBytes (argv.take j) := by
    intro j hj
    have hle := hmono (le_of_lt hj) (le_refl _)
    unfold argvElem
    rw [hargv]
    exact word_of_holds (h.pointer j hj) (by omega)
  -- the regions in the order in which they lie in memory
  have hregion : ∀ r ∈ argv.mapIdx fun i a => (argvElem mem esp i, a.length + 1),
      ∃ j, ∃ hj : j < argv.length, r =
        (esp + 17 + 4 * argv.length + stringBytes (argv.take j), argv[j].length + 1) := by
    intro r hr
    obtain ⟨j, hj, rfl⟩ := mem_mapIdx.mp hr
    exact ⟨j, hj, by rw [helem j hj]⟩
  refine ⟨word_of_holds h.ret (by omega), word_of_holds h.argc (by omega), fun j hj => ?_, ?_, ?_,
    ?_⟩
  · rw [helem j hj]
    exact ⟨hnull _ (getElem_mem hj), h.string j hj⟩
  · unfold argvElem
    rw [hargv]
    exact word_of_holds h.null (by omega)
  · unfold argRegions
    rw [hargv]
    intro r hr
    simp only [mem_cons] at hr
    unfold InStackPage
    rcases hr with rfl | rfl | rfl | rfl | hr
    · constructor <;> simp only <;> omega
    · constructor <;> simp only <;> omega
    · constructor <;> simp only <;> omega
    · constructor <;> simp only <;> omega
    · obtain ⟨j, hj, rfl⟩ := hregion r hr
      have hj' := hsum hj
      have hle := hmono (k := argv.length) (j := j + 1) hj (le_refl _)
      constructor <;> simp only <;> omega
  · have hfirst : ∀ q ∈ argv.mapIdx fun i a => (argvElem mem esp i, a.length + 1),
        esp + 12 + 4 * (argv.length + 1) ≤ q.1 := by
      intro q hq
      obtain ⟨j, hj, rfl⟩ := hregion q hq
      simp only
      omega
    refine List.Pairwise.imp (R := fun r q => r.1 + r.2 ≤ q.1) .inl ?_
    unfold argRegions
    rw [hargv]
    simp only [pairwise_cons, mem_cons]
    refine ⟨?_, ?_, ?_, hfirst, ?_⟩
    · rintro q (rfl | rfl | rfl | hq)
      · simp only; omega
      · simp only; omega
      · simp only; omega
      · have hq' := hfirst q hq
        omega
    · rintro q (rfl | rfl | hq)
      · simp only; omega
      · simp only; omega
      · have hq' := hfirst q hq
        omega
    · rintro q (rfl | hq)
      · simp only; omega
      · have hq' := hfirst q hq
        omega
    · rw [pairwise_iff_getElem]
      intro i j hi hj hij
      rw [length_mapIdx] at hi hj
      simp only [getElem_mapIdx]
      rw [helem i hi, helem j hj]
      have hi' := hsum hi
      have hle := hmono (j := i + 1) (k := j) hij (le_of_lt hj)
      omega

/-! ## 6. The result -/

/-- With the allocations granted, the stack is right exactly if it fits. -/
theorem build_right_iff (mem : ℕ → UInt8) (line : CString) (hlen : line.val.length < 4096) :
    (EspResult.returned true (ArgStack.build (words line.val)
      ⟨mem, physBase.toNat, fun _ => 0, []⟩)).Right (words line.val) ↔
      ArgsFit (words line.val) := by
  have hbase : physBase.toNat = 0xc0000000 := rfl
  have hbytes := stringBytes_words line.val
  have hcount := length_le_stringBytes (words line.val)
  obtain ⟨hlow, hesp, hwrite, hlaid⟩ := ArgStack.build_spec (words line.val)
    (s := ⟨mem, physBase.toNat, fun _ => 0, []⟩) (by show _ ≤ physBase.toNat; omega)
  simp only at hesp
  unfold ArgsFit
  constructor
  · rintro ⟨hwrites, -⟩
    have hpage := (hwrites _ hwrite).1
    simp only at hpage
    omega
  · intro hfit
    refine ⟨fun w hw => ?_, hlaid.decodes (fun w hw h0 => ?_) (by omega) (by omega)⟩
    · rcases hlow.writes w hw with hw | hw
      · exact absurd hw not_mem_nil
      · exact ⟨by omega, hw.2⟩
    · exact line.property (words_subset line.val w hw 0 h0)

theorem constructESP_granted (hr : ∀ k < (words line.val).length, o.realloc k = true)
    (hm : o.malloc = true) :
    constructESP o mem line = .returned true (ArgStack.build (words line.val)
      ⟨mem, physBase.toNat, fun _ => 0, []⟩) := by
  have hparse := parseArgs_eq o.realloc line.val _ [] (lt_succ_self _)
  simp only [length_nil, zero_add, nil_append] at hparse
  rw [if_pos hr] at hparse
  unfold constructESP
  simp only [hparse, if_pos hm]

theorem not_right_of_not_fit (hlen : line.val.length < 4096)
    (hr : ∀ k < (words line.val).length, o.realloc k = true) (hm : o.malloc = true)
    (hfit : ¬ ArgsFit (words line.val)) : ¬ (constructESP o mem line).Right (words line.val) := by
  rw [constructESP_granted hr hm, build_right_iff mem line hlen]
  exact hfit

theorem not_decodes_base {args : List Bytes} : ¬ Decodes mem physBase.toNat args := by
  intro h
  have hin := (h.inside (physBase.toNat, 4) mem_cons_self).2
  simp only at hin
  omega

/-- **Argument stack construction**: for every command line shorter than a page, `construct_ESP`
    returns false or builds, inside the page, a stack that `_start` decodes to the arguments,
    exactly if the arguments with their array fit in the page, or if an allocation fails and the
    uninitialised locals happen to be 0. -/
theorem construct_ESP_iff (o : EspOutcomes) (mem : ℕ → UInt8) (line : CString)
    (hlen : line.val.length < 4096) :
    (constructESP o mem line).Right (words line.val) ↔ EspCond o (words line.val) := by
  have hparse := parseArgs_eq o.realloc line.val _ [] (lt_succ_self _)
  simp only [length_nil, zero_add, nil_append] at hparse
  unfold EspCond
  by_cases hall : ∀ k < (words line.val).length, o.realloc k = true
  · rw [if_pos hall] at hparse ⊢
    by_cases hm : o.malloc = true
    · rw [if_pos hm, constructESP_granted hall hm]
      exact build_right_iff mem line hlen
    · unfold constructESP
      simp only [hparse, if_neg hm]
      cases hsucc : o.success with
      | false => exact ⟨fun _ => rfl, fun _ => trivial⟩
      | true => exact ⟨fun h => absurd h.2 not_decodes_base, nofun⟩
  · rw [if_neg hall] at hparse ⊢
    unfold constructESP
    simp only [hparse]
    by_cases ha : o.argvAddr = 0#32
    · rw [if_pos ha]
      cases hsucc : o.success with
      | false => exact ⟨fun _ => ⟨ha, rfl⟩, fun _ => trivial⟩
      | true => exact ⟨fun h => absurd h.2 not_decodes_base, nofun⟩
    · rw [if_neg ha]
      exact ⟨nofun, fun h => ha h.1⟩

/-- All allocations are granted. -/
def noFailure : EspOutcomes := ⟨fun _ => true, true, 0#32, false⟩

/-- `"ls  -l"`. -/
def lsLine : CString := ⟨[108, 115, 32, 32, 45, 108], by decide⟩

theorem construct_ESP_ls : words lsLine.val = [[108, 115], [45, 108]] ∧
    (constructESP noFailure (fun _ => 0) lsLine).Right [[108, 115], [45, 108]] := by
  have hwords : words lsLine.val = [[108, 115], [45, 108]] := by decide
  have hcond : EspCond noFailure (words lsLine.val) := by
    rw [hwords]
    unfold EspCond ArgsFit
    decide
  exact ⟨hwords, hwords ▸ (construct_ESP_iff noFailure _ lsLine (by decide)).mpr hcond⟩

/-- 680 arguments of one byte each. -/
def manyLine : CString := ⟨(List.replicate 680 [97, 32]).flatten, by decide +kernel⟩

/-- **A page is not enough**: a command line of 1360 bytes whose stack is stored to below its
    page. -/
theorem construct_ESP_overflows : manyLine.val.length = 1360 ∧
    ¬ (constructESP noFailure (fun _ => 0) manyLine).Right (words manyLine.val) := by
  have hlen : manyLine.val.length = 1360 := by decide +kernel
  have hsize : ¬ ArgsFit (words manyLine.val) := by
    unfold ArgsFit
    decide +kernel
  exact ⟨hlen, not_right_of_not_fit (by omega) (fun _ _ => rfl) rfl hsize⟩

end Pintos
